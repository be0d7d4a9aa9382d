import MultiSource.Cycles
import MultiSource.Independence
import MultiSource.Loading

/-!
# The cap on the depth

A load may stand in as many sources as the options allow. A document that loads has no longer chain
of references, and one that needs no longer chain is loaded as if there were no cap. A greater cap
changes only the answers that were at the old one.
-/

namespace MultiSource

open Interaction Inclusion Inclusion.Library

section Caps

variable {S : SourceSet} {float : ExpFormat} {tree : Str → Parse} {maxDepth : ℕ}
  {refused : Str → Prop} {path : Option Str} {chain : List Str}

/-! ## Up to the cap -/

/-- A reference that has a value means a source that ends in it. -/
theorem Comes.visited {site : Site} {v : Value}
    (h : Comes S float tree maxDepth refused path chain (.reference site) (.value v)) :
    ∃ k, S.names (referenceOf float site.body) path = some k ∧
      (S.library float tree).Ends ((S.library float tree).place k) (.ok v) := by
  rcases h.loads with hl | ⟨es, o, hv, ht⟩
  · cases hl
  · cases ht
    cases hv with
    | load hn _ h => exact ⟨_, hn, h.ends rfl⟩

/-- Every source that a source with a value refers to is still within the cap, and has a value. -/
theorem Comes.within {rest : Parse} {v : Value} {reference : Option Str} {k : Str}
    (h : Comes S float tree maxDepth refused path chain (.source rest) (.value v))
    (hi : (S.library float tree).Inside (path, rest.text float) reference)
    (hn : S.names reference path = some k) :
    chain.length < maxDepth ∧ ∃ rest' w, rest'.text float = (S.library float tree).text k ∧
      Comes S float tree maxDepth refused (some k) (chain ++ [k]) (.source rest') (.value w) := by
  induction rest generalizing v with
  | done result => cases hi
  | act site next ih =>
    cases h with
    | next hv hrest =>
      cases hi with
      | here =>
        cases hv with
        | text hn' hcheck ht hp =>
          obtain rfl := Option.some.inj (hn.symm.trans hn')
          exact ⟨(chainReport_eq_none hcheck).2, .done (.ok (.string _)), _,
            (congrArg Prod.snd (library_place_unparsed ht hp)).symm, .value⟩
        | nested hn' hcheck ht hp hc ho =>
          obtain rfl := Option.some.inj (hn.symm.trans hn')
          obtain rfl := carry_eq_value ho
          exact ⟨(chainReport_eq_none hcheck).2, _, _,
            (congrArg Prod.snd (library_place_parsed ht hp)).symm, hc⟩
      | later hn' he hi =>
        obtain ⟨k', hk', he'⟩ := hv.visited
        obtain rfl := Option.some.inj (hk'.symm.trans hn')
        obtain rfl := Except.ok.inj (he'.unique he)
        exact ih _ hrest hi

/-- The chains of references from a document with a value are within the cap. -/
theorem Comes.trails {doc : Parse} {v : Value} {trail : List Str}
    (h : Comes S float tree maxDepth refused none [] (.source doc) (.value v))
    (ht : (S.library float tree).Trail (none, doc.text float) trail) :
    trail.length ≤ maxDepth ∧ ∃ rest w,
      rest.text float = ((S.library float tree).last (none, doc.text float) trail).2 ∧
      Comes S float tree maxDepth refused
        ((S.library float tree).last (none, doc.text float) trail).1 trail (.source rest)
        (.value w) := by
  induction ht with
  | nil => exact ⟨Nat.zero_le _, doc, v, rfl, h⟩
  | snoc _ hr ih =>
    obtain ⟨-, rest, w, hrest, hc⟩ := ih
    obtain ⟨reference, hi, hn⟩ : Library.Refers _ (Library.last _ _ _) _ := hr
    have hlast : (S.library float tree).last (none, doc.text float) _ =
        (_, rest.text float) := Prod.ext rfl hrest.symm
    rw [hlast] at hi
    obtain ⟨hlt, rest', w', hrest', hc'⟩ := hc.within hi hn
    rw [last_concat]
    refine ⟨?_, rest', w', hrest', hc'⟩
    rw [List.length_append, List.length_singleton]
    exact hlt

/-! ## At the cap -/

/-- The references of a task are references of the text at `p`. -/
def RestsAt (S : SourceSet) (float : ExpFormat) (tree : Str → Parse)
    (p : Place Str (Option Str) Value OwnError) (path : Option Str) : Task → Prop
  | .source rest => Rests (S.library float tree) p (path, rest.text float)
  | .reference site =>
    p.1 = path ∧ (S.library float tree).Inside p (referenceOf float site.body)

theorem nodup_concat {full : Str} (h : chain.Nodup) (hfull : full ∉ chain) :
    (chain ++ [full]).Nodup := by
  rw [← List.concat_eq_append]
  exact h.concat hfull

/-- A parse that comes to the cap has followed a chain of references beyond it. -/
theorem Comes.deep {root : Place Str (Option Str) Value OwnError} {task : Task} {o : Outcome}
    (h : Comes S float tree maxDepth refused path chain task o) :
    ∀ report, o = .raised report → report.1 = DEPTH →
      (S.library float tree).Trail root chain → chain.Nodup →
      RestsAt S float tree ((S.library float tree).last root chain) path task →
      ∃ trail, (S.library float tree).Trail root trail ∧ trail.Nodup ∧ maxDepth < trail.length := by
  induction h with
  | value => exact fun _ ho => (by cases ho)
  | own => exact fun _ ho => (by cases ho)
  | next hv _ _ ih =>
    intro report ho hd ht hnodup hr
    obtain ⟨k, hk, he⟩ := hv.visited
    exact ih report ho hd ht hnodup (hr.next hk he)
  | stop _ ih =>
    intro report ho hd ht hnodup hr
    exact ih report ho hd ht hnodup ⟨hr.here.symm, hr.inside _ .here⟩
  | missing =>
    rintro _ ⟨⟩ hd
    cases (by decide : NOT_FOUND ≠ DEPTH) hd
  | @refused path chain site full report hn hcheck =>
    rintro _ ⟨⟩ hd ht hnodup ⟨hp, hi⟩
    rcases chainReport_eq_some hcheck with ⟨before, after, -, -, rfl⟩ | ⟨hnot, hcap, -⟩
    · cases (by decide : CYCLE ≠ DEPTH) hd
    · refine ⟨chain ++ [full], ht.snoc ⟨_, hi, hp ▸ hn⟩, nodup_concat hnodup hnot, ?_⟩
      rw [List.length_append, List.length_singleton]
      omega
  | text => exact fun _ ho => (by cases ho)
  | @noThread _ _ _ _ reason =>
    rintro _ ⟨⟩ hd
    cases (codeOf_own (threadError reason)).2.2 hd
  | @nested path chain site full src o o' hn hcheck ht hp _ ho ih =>
    rintro report rfl hd htrail hnodup ⟨hpath, hi⟩
    cases o' with
    | value v => cases ho
    | own e =>
      obtain rfl := Outcome.raised.inj ho
      cases (codeOf_own e).2.2 hd
    | raised report' =>
      obtain rfl := Outcome.raised.inj ho
      have hrest : Rests (S.library float tree) ((S.library float tree).last root (chain ++ [full]))
          (some full, (tree src).text float) := library_place_parsed ht hp ▸ .concat ..
      exact ih report rfl hd (htrail.snoc ⟨_, hi, hpath ▸ hn⟩)
        (nodup_concat hnodup (chainReport_eq_none hcheck).1) hrest

/-! ## A greater cap -/

theorem chainReport_some_of_some {full : Str} {report : Report}
    (h : chainReport maxDepth chain full = some report) (maxDepth' : ℕ) :
    report.1 = DEPTH ∨ chainReport maxDepth' chain full = some report := by
  unfold chainReport at h ⊢
  split at h
  · exact .inr h
  · split_ifs at h
    obtain rfl := Option.some.inj h
    exact .inl rfl

theorem chainReport_none_mono {maxDepth' : ℕ} {full : Str} (hle : maxDepth ≤ maxDepth')
    (h : chainReport maxDepth chain full = none) : chainReport maxDepth' chain full = none := by
  unfold chainReport at h ⊢
  split at h
  · cases h
  · split_ifs at h with hcap
    rw [if_neg (by omega)]

/-- What comes to an end below one cap does so below a greater one. -/
theorem Comes.raise {maxDepth' : ℕ} (hle : maxDepth ≤ maxDepth') {task : Task} {o : Outcome}
    (h : Comes S float tree maxDepth refused path chain task o) :
    (∃ report, o = .raised report ∧ report.1 = DEPTH) ∨
      Comes S float tree maxDepth' refused path chain task o := by
  induction h with
  | value => exact .inr .value
  | own => exact .inr .own
  | next _ _ ih ih' =>
    rcases ih with ⟨_, ho, -⟩ | hv
    · cases ho
    · exact ih'.imp_right hv.next
  | stop _ ih => exact ih.imp_right .stop
  | missing hn => exact .inr (.missing hn)
  | refused hn hcheck =>
    rcases chainReport_some_of_some hcheck maxDepth' with hd | hcheck'
    · exact .inl ⟨_, rfl, hd⟩
    · exact .inr (.refused hn hcheck')
  | text hn hcheck ht hp => exact .inr (.text hn (chainReport_none_mono hle hcheck) ht hp)
  | noThread hn hcheck hp hr => exact .inr (.noThread hn (chainReport_none_mono hle hcheck) hp hr)
  | nested hn hcheck ht hp _ ho ih =>
    subst ho
    rcases ih with ⟨report, rfl, hd⟩ | hc
    · exact .inl ⟨report, rfl, hd⟩
    · exact .inr (.nested hn (chainReport_none_mono hle hcheck) ht hp hc rfl)

/-- Where no thread is refused, a task below one chain has one outcome. -/
theorem Comes.outcome_unique {task : Task} {o o' : Outcome}
    (h : Comes S float tree maxDepth granted path chain task o)
    (h' : Comes S float tree maxDepth granted path chain task o') : o = o' := by
  induction h generalizing o' with
  | value =>
    cases h'
    rfl
  | own =>
    cases h'
    rfl
  | next _ _ ih ih' =>
    cases h' with
    | next hv hr =>
      obtain rfl := Outcome.value.inj (ih hv)
      exact ih' hr
    | stop hv => cases ih hv
  | stop _ ih =>
    cases h' with
    | next hv _ => cases ih hv
    | stop hv => exact ih hv
  | missing hn =>
    cases h' with
    | missing => rfl
    | refused hn' => cases hn.symm.trans hn'
    | text hn' => cases hn.symm.trans hn'
    | noThread _ _ _ hr => exact absurd hr id
    | nested hn' => cases hn.symm.trans hn'
  | refused hn hcheck =>
    cases h' with
    | missing hn' => cases hn.symm.trans hn'
    | refused hn' hcheck' =>
      obtain rfl := Option.some.inj (hn.symm.trans hn')
      rw [Option.some.inj (hcheck.symm.trans hcheck')]
    | text hn' hcheck' =>
      obtain rfl := Option.some.inj (hn.symm.trans hn')
      cases hcheck.symm.trans hcheck'
    | noThread _ _ _ hr => exact absurd hr id
    | nested hn' hcheck' =>
      obtain rfl := Option.some.inj (hn.symm.trans hn')
      cases hcheck.symm.trans hcheck'
  | text hn hcheck ht hp =>
    cases h' with
    | missing hn' => cases hn.symm.trans hn'
    | refused hn' hcheck' =>
      obtain rfl := Option.some.inj (hn.symm.trans hn')
      cases hcheck.symm.trans hcheck'
    | text hn' _ ht' _ =>
      obtain rfl := Option.some.inj (hn.symm.trans hn')
      rw [Option.some.inj (ht.symm.trans ht')]
    | noThread _ _ _ hr => exact absurd hr id
    | nested hn' _ _ hp' =>
      obtain rfl := Option.some.inj (hn.symm.trans hn')
      cases hp.symm.trans hp'
  | noThread _ _ _ hr => exact absurd hr id
  | nested hn hcheck ht hp _ ho ih =>
    cases h' with
    | missing hn' => cases hn.symm.trans hn'
    | refused hn' hcheck' =>
      obtain rfl := Option.some.inj (hn.symm.trans hn')
      cases hcheck.symm.trans hcheck'
    | text hn' _ _ hp' =>
      obtain rfl := Option.some.inj (hn.symm.trans hn')
      cases hp.symm.trans hp'
    | noThread _ _ _ hr => exact absurd hr id
    | nested hn' _ ht' _ hc' ho' =>
      obtain rfl := Option.some.inj (hn.symm.trans hn')
      obtain rfl := Option.some.inj (ht.symm.trans ht')
      rw [ho, ho', ih hc']

end Caps

section Documents

variable {I : Type} {options : MultiSourceOptions} {engine : Engine I options.markchar}
  {tree : Str → Parse} {parser : I}

/-- A run of a document comes to an outcome of its text. -/
theorem exec_comes (hproc : options.processor = defaultProcessors) {S : SourceSet}
    {resolve : Option Str → Value → Resolution} {refused : Str → Prop}
    (hS : S.Serves (World.of resolve refused : World I)) (htree : Textual engine tree) {src : Str}
    {parseMeta : Value} (hm : Unmarked parseMeta) {s s' : Shared I} (hs : s.slots = [])
    {answer : Except TabnasError Value}
    (h : Exec (S := sig I) (Handles (World.of resolve refused)) (body engine) s
      (body engine (.parse parser src parseMeta)) answer s') :
    ∃ o, Comes S engine.float tree options.maxDepth refused none [] (.source (tree src)) o ∧
      Answers o answer := by
  obtain ⟨o, hends, hanswers⟩ := exec_top hproc (Fresh.topLevel hm) hs h
  have hcomes := hends.comes hproc hS (fun _ h => h _ rfl) htree
  rw [htree, hm.chain, hm.path] at hcomes
  exact ⟨o, hcomes, hanswers⟩

theorem Tells.coded {f : Library.Fault Str (Option Str) OwnError} {o : Outcome}
    {answer : Except TabnasError Value}
    (h : Tells (.error f) o) (ha : Answers o answer) :
    ∃ error, answer = .error error ∧ Coded f error.code := by
  cases h with
  | own path e => exact ⟨_, ha, e.own⟩
  | raised hcode =>
    obtain ⟨e, rfl, hc, -⟩ := ha
    exact ⟨e, rfl, hc ▸ hcode⟩

theorem Coded.not_deep {f : Library.Fault Str (Option Str) OwnError} {code : Str}
    (h : Coded f code) : code ≠ DEPTH := by
  rintro rfl
  cases f with
  | own path e => exact h.2.2 rfl
  | missing path reference => cases (by decide : DEPTH ≠ NOT_FOUND) h
  | cycle c k => cases (by decide : DEPTH ≠ CYCLE) h

/-- What the cap decides, for every store and every document. A document has a value only if its
references are sound and their chains within the cap, and then it has one unless a thread is
refused: the value of the texts. It is stopped at the cap only where a chain without a source twice
is beyond it, so never if it leads to no more sources than the cap, and by any other error of the
plugin only for what that says of its references. -/
theorem document_loads_within_cap (hproc : options.processor = defaultProcessors) (store : Store)
    (refused : Str → Prop) (htree : Textual engine tree) {src : Str} {parseMeta : Value}
    (hm : Unmarked parseMeta) {s : Shared I} (hs : s.slots = []) :
    let L := (store.sources options).library engine.float tree
    let p : Place Str (Option Str) Value OwnError := (none, (tree src).text engine.float)
    let Ran := Exec (S := sig I) (Handles (store.world options refused)) (body engine) s
      (body engine (.parse parser src parseMeta))
    (∃ answer s', Ran answer s') ∧ ∀ answer s', Ran answer s' →
      (∀ v, answer = .ok v → L.Ends p (.ok v) ∧ L.Sound [] p ∧
        ∀ trail, L.Trail p trail → trail.length ≤ options.maxDepth) ∧
      (L.Sound [] p → (∀ trail, L.Trail p trail → trail.length ≤ options.maxDepth) →
        ∀ error, answer = .error error →
          error.code = "internal".toList ∧ ∃ reason, refused reason) ∧
      (∀ error, answer = .error error → error.code = DEPTH →
        (∃ trail, L.Trail p trail ∧ trail.Nodup ∧ options.maxDepth < trail.length) ∧
        ∀ keys : List Str, (∀ k, L.Reached p k → k ∈ keys) → options.maxDepth < keys.length) ∧
      ∀ error, answer = .error error → error.code ≠ DEPTH →
        (error.code = "internal".toList ∧ ∃ reason, refused reason) ∨
          ∃ f, Blames L [] p f ∧ Coded f error.code := by
  intro L p Ran
  refine ⟨Halts.exec (fun s o => ⟨_, _, handles_answer _ refused s o⟩) (halts_body _) s,
    fun answer s' h => ?_⟩
  obtain ⟨o, hcomes, hanswers⟩ := exec_comes hproc (store.serves options refused) htree hm hs h
  rcases hcomes.loads with hl | ⟨es, o', hload, ht⟩
  · cases hl with
    | @depth report hd =>
      obtain ⟨e, rfl, hc, -⟩ := hanswers
      obtain ⟨trail, ht, hnodup, hlt⟩ :=
        hcomes.deep report rfl hd .nil .nil (.refl _)
      refine ⟨fun v hv => (by cases hv), fun _ hcap => ?_, fun e' he _ => ?_, fun e' he hno => ?_⟩
      · exact absurd (hcap trail ht) (Nat.not_le.mpr hlt)
      · refine ⟨⟨trail, ht, hnodup, hlt⟩, fun keys hkeys => ?_⟩
        have hsub : trail ⊆ keys := fun k hk => hkeys k (ht.reached hk)
        exact hlt.trans_le (List.subperm_of_subset hnodup hsub).length_le
      · obtain rfl := Except.error.inj he
        exact absurd (hc.trans hd) hno
    | thread hr hi =>
      obtain ⟨e, rfl, hc, -⟩ := hanswers
      have hcode := hc.trans hi
      refine ⟨fun v hv => (by cases hv), fun _ _ e' he => ?_, fun e' he hd => ?_,
        fun e' he _ => ?_⟩
      · obtain rfl := Except.error.inj he
        exact ⟨hcode, _, hr⟩
      · obtain rfl := Except.error.inj he
        exact absurd (hcode.symm.trans hd) (by decide)
      · obtain rfl := Except.error.inj he
        exact .inl ⟨hcode, _, hr⟩
  · have hload' : L.Loads [] p es o' := hload
    cases o' with
    | ok v =>
      cases ht
      obtain rfl : answer = .ok v := hanswers
      refine ⟨fun w hw => ?_, fun _ _ e he => (by cases he), fun e he => (by cases he),
        fun e he => (by cases he)⟩
      obtain rfl := Except.ok.inj hw
      exact ⟨hload'.ends rfl, hload'.sound, fun trail ht => (hcomes.trails ht).1⟩
    | error f =>
      have hblames : Blames L [] p f := hload'.blames rfl rfl .nil (.refl _)
      obtain ⟨e, rfl, hcode⟩ := ht.coded hanswers
      refine ⟨fun v hv => (by cases hv), fun hsound _ => absurd hblames hsound.not_blames,
        fun e' he hd => ?_, fun e' he _ => ?_⟩
      · obtain rfl := Except.error.inj he
        exact absurd hd hcode.not_deep
      · obtain rfl := Except.error.inj he
        exact .inr ⟨f, hblames, hcode⟩

/-- The options with another cap. -/
abbrev MultiSourceOptions.withMaxDepth (options : MultiSourceOptions) (maxDepth : ℕ) :
    MultiSourceOptions :=
  { options with maxDepth := maxDepth }

/-- A parse runs under a cap, and no thread is refused. -/
def RunsUnder (engine : Engine I options.markchar) (store : Store) (maxDepth : ℕ) (c : Call I)
    (s : Shared I) (answer : Except TabnasError Value) (s' : Shared I) : Prop :=
  Exec (S := sig I) (Handles (store.world (options.withMaxDepth maxDepth) granted))
    (@body I (options.withMaxDepth maxDepth) engine) s
    (@body I (options.withMaxDepth maxDepth) engine c) answer s'

/-- What a store resolves has nothing to do with the cap. -/
theorem sources_withMaxDepth (store : Store) (options : MultiSourceOptions) (maxDepth : ℕ) :
    store.sources (options.withMaxDepth maxDepth) = store.sources options := by
  cases store <;> rfl

theorem RunsUnder.comes (hproc : options.processor = defaultProcessors) {store : Store}
    {maxDepth : ℕ} (htree : Textual engine tree) {src : Str} {parseMeta : Value}
    (hm : Unmarked parseMeta) {s s' : Shared I} (hs : s.slots = [])
    {answer : Except TabnasError Value}
    (h : RunsUnder engine store maxDepth (.parse parser src parseMeta) s answer s') :
    ∃ o, Comes (store.sources options) engine.float tree maxDepth granted none []
      (.source (tree src)) o ∧ Answers o answer := by
  have hserves := store.serves (options.withMaxDepth maxDepth) granted (I := I)
  have hcomes := @exec_comes I (options.withMaxDepth maxDepth) engine tree parser hproc _ _ _
    hserves htree src parseMeta hm s s' hs answer h
  rwa [sources_withMaxDepth] at hcomes

/-- An answer that was not at the cap is the answer under every greater cap: the same value, or an
error with the same code and details. -/
theorem greater_cap_same_answer (hproc : options.processor = defaultProcessors) (store : Store)
    (htree : Textual engine tree) {src : Str} {parseMeta : Value} (hm : Unmarked parseMeta)
    {s : Shared I} (hs : s.slots = []) {maxDepth maxDepth' : ℕ} (hle : maxDepth ≤ maxDepth')
    {answer answer' : Except TabnasError Value} {s₁ s₂ : Shared I}
    (h : RunsUnder engine store maxDepth (.parse parser src parseMeta) s answer s₁)
    (h' : RunsUnder engine store maxDepth' (.parse parser src parseMeta) s answer' s₂) :
    answerCode answer = DEPTH ∨ ∃ o, Answers o answer ∧ Answers o answer' := by
  obtain ⟨o, hcomes, hanswers⟩ := h.comes hproc htree hm hs
  obtain ⟨o', hcomes', hanswers'⟩ := h'.comes hproc htree hm hs
  rcases hcomes.raise hle with ⟨report, rfl, hd⟩ | hraised
  · obtain ⟨e, rfl, hc, -⟩ := hanswers
    exact .inl (hc.trans hd)
  · exact .inr ⟨o, hanswers, hraised.outcome_unique hcomes' ▸ hanswers'⟩

end Documents

/-! ## Two sources under small caps -/

/-- A source that refers to another. -/
def twoDeep : MapResolver :=
  ⟨[("a.jsonic".toList, "@b".toList), ("b.jsonic".toList, "x".toList)]⟩

/-- The default options with room for one source. -/
abbrev shallow : MultiSourceOptions := MultiSourceOptions.new.withMaxDepth 1

/-- A document that refers to the first of them. -/
abbrev deepDocument : Call Bool := .parse true "@a".toList .undefined

theorem document_loads_within_cap_twoDeep :
    ∃ trail, (((Store.map twoDeep).sources shallow).library aloneEngine.float parseAlone).Trail
      (none, (parseAlone "@a".toList).text aloneEngine.float) trail ∧
      trail.Nodup ∧ 1 < trail.length := by
  have hrun : ((interpret (S := sig Bool) (answer ((Store.map twoDeep).resolve shallow))
      (@body Bool shallow aloneEngine) 3 Shared.init deepDocument).map fun r => answerCode r.1) =
        some DEPTH := by
    decide +kernel
  obtain ⟨⟨result, s'⟩, hrun, hcode⟩ := Option.map_eq_some_iff.mp hrun
  have hexec := exec_of_interpret (handles_answer _ granted) _ _ _ _ hrun
  have hm : Unmarked Value.undefined := rfl
  have hall := (@document_loads_within_cap Bool shallow aloneEngine parseAlone true rfl
    (.map twoDeep) granted (fun _ _ _ => rfl) _ _ hm _ rfl).2 result s' hexec
  cases result with
  | ok v => cases (by decide : [] ≠ DEPTH) hcode
  | error error => exact (hall.2.2.1 error rfl hcode).1

theorem exists_deepRun (maxDepth : ℕ) : ∃ answer s, @RunsUnder Bool .new aloneEngine
    (.map twoDeep) maxDepth deepDocument Shared.init answer s :=
  Halts.exec (fun s o => ⟨_, _, handles_answer _ granted s o⟩) (halts_body _) Shared.init

theorem greater_cap_same_answer_twoDeep : ∃ answer answer' s₁ s₂,
    @RunsUnder Bool .new aloneEngine (.map twoDeep) 2 deepDocument Shared.init answer s₁ ∧
    @RunsUnder Bool .new aloneEngine (.map twoDeep) 9 deepDocument Shared.init answer' s₂ ∧
      (answerCode answer = DEPTH ∨ ∃ o, Answers o answer ∧ Answers o answer') := by
  obtain ⟨answer, s₁, h⟩ := exists_deepRun 2
  obtain ⟨answer', s₂, h'⟩ := exists_deepRun 9
  have htree : Textual aloneEngine parseAlone := fun _ _ _ => rfl
  have hm : Unmarked Value.undefined := rfl
  exact ⟨answer, answer', s₁, s₂, h, h',
    greater_cap_same_answer rfl (.map twoDeep) htree hm rfl (by decide) h h'⟩

end MultiSource
