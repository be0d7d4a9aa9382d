import MultiSource.References
import MultiSource.Reports
import MultiSource.Published

/-!
# A load does not depend on where it stands

Two loads of one source, in whatever sources and below whatever chains, come to the same outcome
unless one of them meets a cycle or the cap.
-/

namespace MultiSource

open Interaction

/-- A failure that the chain, not the source, is the reason of. -/
def Capped (o : Outcome) : Prop :=
  ∃ report, o = .raised report ∧ (report.1 = CYCLE ∨ report.1 = DEPTH)

section Outcomes

variable {S : SourceSet} {float : ExpFormat} {tree : Str → Parse} {maxDepth : ℕ}

theorem Capped.carry {full : Str} {o : Outcome} (h : Capped o) : Capped (carry full o) := by
  obtain ⟨report, rfl, hc⟩ := h
  exact ⟨report, rfl, hc⟩

theorem capped_of_chainReport {chain : List Str} {full : Str} {report : Report}
    (h : chainReport maxDepth chain full = some report) : Capped (.raised report) :=
  ⟨report, rfl, chainReport_code h⟩

/-- What a named source comes to, unless the chain stops it: its text, or what its parse does. -/
theorem Comes.of_named {path : Option Str} {chain : List Str} {site : Site} {full : Str}
    {o : Outcome} (hn : S.names (referenceOf float site.body) path = some full)
    (h : Comes S float tree maxDepth granted path chain (.reference site) o) (ho : ¬ Capped o) :
    ∃ src, S.text full = some src ∧
      ((isParsed full = false ∧ o = .value (.string src)) ∨
        (isParsed full = true ∧ ∃ inner, Comes S float tree maxDepth granted (some full)
          (chain ++ [full]) (.source (tree src)) inner ∧ o = carry full inner)) := by
  cases h with
  | missing hn' => exact absurd (hn'.symm.trans hn) (by simp)
  | refused _ hc => exact absurd (capped_of_chainReport hc) ho
  | text hn' _ ht hp =>
    obtain rfl := Option.some.inj (hn'.symm.trans hn)
    exact ⟨_, ht, .inl ⟨hp, rfl⟩⟩
  | noThread _ _ _ hr => exact absurd hr id
  | nested hn' _ ht hp hc he =>
    obtain rfl := Option.some.inj (hn'.symm.trans hn)
    exact ⟨_, ht, .inr ⟨hp, _, hc, he⟩⟩

/-- The chain decides between an outcome and a failure of its own, not between two outcomes. -/
theorem Comes.unique {path : Option Str} {chain chain' : List Str} {task : Task} {o o' : Outcome}
    (h : Comes S float tree maxDepth granted path chain task o)
    (h' : Comes S float tree maxDepth granted path chain' task o') (ho : ¬ Capped o)
    (ho' : ¬ Capped o') : o = o' := by
  induction h generalizing chain' o' with
  | value =>
    cases h'
    rfl
  | own =>
    cases h'
    rfl
  | next _ _ ih ih' =>
    cases h' with
    | next hv hr =>
      obtain rfl := Outcome.value.inj (ih hv (by rintro ⟨_, h, -⟩; cases h)
        (by rintro ⟨_, h, -⟩; cases h))
      exact ih' hr ho ho'
    | stop hv => exact absurd (ih hv (by rintro ⟨_, h, -⟩; cases h) ho') (by simp)
  | stop _ ih =>
    cases h' with
    | next hv _ => exact absurd (ih hv ho (by rintro ⟨_, h, -⟩; cases h)) (by simp)
    | stop hv => exact ih hv ho ho'
  | missing hn =>
    cases h' with
    | missing _ => rfl
    | refused hn' _ => exact absurd (hn.symm.trans hn') (by simp)
    | text hn' _ _ _ => exact absurd (hn.symm.trans hn') (by simp)
    | noThread _ _ _ hr => exact absurd hr id
    | nested hn' _ _ _ _ _ => exact absurd (hn.symm.trans hn') (by simp)
  | refused _ hc => exact absurd (capped_of_chainReport hc) ho
  | text hn _ ht hp =>
    obtain ⟨src, ht', ⟨-, rfl⟩ | ⟨hp', -⟩⟩ := h'.of_named hn ho'
    · rw [Option.some.inj (ht.symm.trans ht')]
    · exact absurd (hp.symm.trans hp') Bool.false_ne_true
  | noThread _ _ _ hr => exact absurd hr id
  | nested hn _ ht hp _ he ih =>
    obtain ⟨src, ht', ⟨hp', -⟩ | ⟨-, inner, hc', rfl⟩⟩ := h'.of_named hn ho'
    · exact absurd (hp'.symm.trans hp) Bool.false_ne_true
    · obtain rfl := Option.some.inj (ht.symm.trans ht')
      subst he
      rw [ih hc' (fun hc => ho hc.carry) fun hc => ho' hc.carry]

/-- Two references to one source have one outcome. -/
theorem Comes.unique_reference {path path' : Option Str} {chain chain' : List Str}
    {site site' : Site} {full : Str} {o o' : Outcome}
    (hn : S.names (referenceOf float site.body) path = some full)
    (hn' : S.names (referenceOf float site'.body) path' = some full)
    (h : Comes S float tree maxDepth granted path chain (.reference site) o)
    (h' : Comes S float tree maxDepth granted path' chain' (.reference site') o') (ho : ¬ Capped o)
    (ho' : ¬ Capped o') : o = o' := by
  obtain ⟨src, ht, hform⟩ := h.of_named hn ho
  obtain ⟨src', ht', hform'⟩ := h'.of_named hn' ho'
  obtain rfl := Option.some.inj (ht.symm.trans ht')
  rcases hform with ⟨hp, rfl⟩ | ⟨hp, inner, hc, rfl⟩
  · rcases hform' with ⟨-, rfl⟩ | ⟨hp', -⟩
    · rfl
    · exact absurd (hp.symm.trans hp') Bool.false_ne_true
  · rcases hform' with ⟨hp', -⟩ | ⟨-, inner', hc', rfl⟩
    · exact absurd (hp'.symm.trans hp) Bool.false_ne_true
    · rw [hc.unique hc' (fun hc => ho hc.carry) fun hc => ho' hc.carry]

end Outcomes

/-! ## Two loads of one source -/

variable {I : Type} {options : MultiSourceOptions} {engine : Engine I options.markchar}
  {tree : Str → Parse}

/-- The cells as an action under `parseMeta` finds them: a parser is published, and its ticket and
those of the slots were minted. -/
structure Standing (s : Shared I) (parseMeta : Value) : Prop where
  published : s.published.isSome = true
  clean : Clean s
  minted : Minted s parseMeta

/-- Every action of every run finds the cells so. -/
theorem standing_of_reachable {W : World I} {p : Parses options I}
    (hp : Pool.Reachable (busy engine W) Shared.init p) {t : Running options I}
    (ht : t ∈ p.threads) {reference : Option Str} {parseMeta : Value}
    {k : Resolution → Program I (Except TabnasError Value)}
    (hk : t.prog = .op (.resolve reference parseMeta) k) : Standing p.shared parseMeta := by
  have hinv := slotInv hp
  have hrun := (Pool.ReachableBy.typed guarded_busy hp t ht).running
  rw [hk] at hrun
  obtain ⟨⟨rfl, -, -, hlive⟩, -⟩ := (hrun _ (.refl _ _)).1
  have hminted : ∀ ticket ∈ ticketsOf t, ∃ k < p.shared.next, ticket = decimal k :=
    fun ticket hm => hinv.minted ticket (List.mem_flatMap.mpr ⟨t, ht, hm⟩)
  refine ⟨published_of_live hp t ht t.note (List.mem_cons_self ..) hlive, fun j hj => ?_,
    fun ticket hticket => ?_⟩
  · cases hg : p.shared.slots.get (decimal j) with
    | none => rfl
    | some report =>
      obtain ⟨i, hi, he⟩ :=
        hinv.minted _ (ticket_of_mem_slots ((hinv.slots _ report).mp hg))
      have := decimal_inj.mp he
      omega
  · -- the ticket is that of the load the parse is nested in, which holds it
    have hstack := stackRule_reportsTo.stacked guarded_busy (hp.reached t ht)
    have hbottom := bottom_ticket hp t ht
    cases hcs : t.callers with
    | nil =>
      have hnone := hbottom t.note (by simp [Thread.notes, hcs])
      exact absurd (hticket.symm.trans hnone) (by simp)
    | cons f cs =>
      rw [Thread.notes, hcs, List.map_cons] at hstack
      have hheld : f.1.held = some ticket := by
        rcases (List.isChain_cons_cons.mp hstack).1 with hnone | hheld
        · exact absurd (hticket.symm.trans hnone) (by simp)
        · exact hheld.symm.trans hticket
      refine hminted ticket (List.mem_append_left _ (List.mem_filterMap.mpr ⟨f.1, ?_, hheld⟩))
      simp [Thread.notes, hcs]

/-- The reference at `site` resolves to the source `full`. -/
def LoadsFrom (engine : Engine I options.markchar) (store : Store) (parseMeta : Value) (site : Site)
    (full : Str) : Prop :=
  let r := store.resolve options (referenceOf engine.float site.body) parseMeta
  r.found = true ∧ r.spec.full = some full

/-- An action that failed with a cycle or at the cap. -/
def FailedByChain (result : ActionResult) : Prop :=
  ∃ token code details, result = .bad token code details ∧ (code = CYCLE ∨ code = DEPTH)

theorem LoadsFrom.names {store : Store} {m : Value} {site : Site} {full : Str}
    (h : LoadsFrom engine store m site full) :
    (store.sources options).names (referenceOf engine.float site.body) (sourcePath m) =
      some full := by
  have he : (store.sources options).resolve (referenceOf engine.float site.body) (sourcePath m) =
      store.resolve options (referenceOf engine.float site.body) m :=
    store.resolve_congr options _ (sourcePath_metaAt _)
  rw [SourceSet.names, he, if_pos h.1, h.2]

/-- An action on a source set comes to the outcome of its reference. -/
theorem action_comes (hproc : options.processor = defaultProcessors) (store : Store)
    (htree : Textual engine tree) {m : Value} {site : Site} {s s' : Shared I}
    {result : ActionResult} (hs : Standing s m)
    (h : Execs engine (store.world options granted) s
      (directiveAction options engine.float m site) result s') :
    ∃ o, Comes (store.sources options) engine.float tree options.maxDepth granted (sourcePath m)
      (metaChain m) (.reference site) o ∧ Acts site o result := by
  obtain ⟨parser, hpub⟩ := Option.isSome_iff_exists.mp hs.published
  obtain ⟨o, hends, hacts, -⟩ := exec_directiveAction hproc hpub hs.clean hs.minted
    (fun r ha => nestedEnds hproc ha) h
  exact ⟨o, hends.comes hproc (store.serves options granted) (fun _ h => h _ rfl) htree, hacts⟩

theorem not_capped {site : Site} {o : Outcome} {result : ActionResult} (h : Acts site o result)
    (hr : ¬ FailedByChain result) : ¬ Capped o := by
  rintro ⟨report, rfl, hc⟩
  obtain ⟨token, rfl⟩ := h
  exact hr ⟨token, _, _, rfl, hc⟩

/-- With the default processors, over a finite source set, where a nested parse is a function of its
text and of its references (the engine reads nothing else, and no thread is refused): two actions
that load one source, anywhere and after anything, give the same value or fail with the same code
and details, unless one of them fails with a cycle or at the cap. -/
theorem source_outcome_independent (hproc : options.processor = defaultProcessors) (store : Store)
    (htree : Textual engine tree) {m m' : Value} {site site' : Site} {full : Str}
    {s s' t t' : Shared I} {result result' : ActionResult}
    (hfull : LoadsFrom engine store m site full) (hfull' : LoadsFrom engine store m' site' full)
    (hs : Standing s m) (ht : Standing t m')
    (h : Exec (S := sig I) (Handles (store.world options granted)) (body engine) s
      (directiveAction options engine.float m site) result s')
    (h' : Exec (S := sig I) (Handles (store.world options granted)) (body engine) t
      (directiveAction options engine.float m' site') result' t')
    (hr : ¬ FailedByChain result) (hr' : ¬ FailedByChain result') :
    (∃ v, result = .applied (site.effect v) ∧ result' = .applied (site'.effect v)) ∨
      ∃ token token' code details, result = .bad token code details ∧
        result' = .bad token' code details := by
  obtain ⟨o, hcomes, hacts⟩ := action_comes hproc store htree hs h
  obtain ⟨o', hcomes', hacts'⟩ := action_comes hproc store htree ht h'
  obtain rfl := hcomes.unique_reference hfull.names hfull'.names hcomes' (not_capped hacts hr)
    (not_capped hacts' hr')
  cases o with
  | value v => exact .inl ⟨v, hacts, hacts'⟩
  | own e => exact absurd hacts id
  | raised report =>
    obtain ⟨token, rfl⟩ := hacts
    obtain ⟨token', rfl⟩ := hacts'
    exact .inr ⟨token, token', _, _, rfl, rfl⟩

/-- Metadata of a reference in no source of the set, below the source `c`. -/
def belowC : Value :=
  .object [(RULE_NAME, .object [("parents".toList, .array [.string "c".toList])])]

/-- The action on `a` in the sources of the small installation. -/
def loadA (parseMeta : Value) : Option (ActionResult × Shared Bool) :=
  interpretWith (S := sig Bool) (answer danglingResolve)
    (interpret (answer danglingResolve) (body aloneEngine) 2) (Shared.init.publish true)
    (directiveAction MultiSourceOptions.new aloneEngine.float parseMeta (.alone "a".toList))

theorem loadA_code (parseMeta : Value) (h : ((loadA parseMeta).map fun r => match r.1 with
    | .bad _ code _ => code
    | _ => []) = some NOT_FOUND) :
    ∃ token details s', loadA parseMeta = some (.bad token NOT_FOUND details, s') := by
  obtain ⟨⟨result, s'⟩, hl, hc⟩ := Option.map_eq_some_iff.mp h
  cases result with
  | bad token code details =>
    obtain rfl : code = NOT_FOUND := hc
    exact ⟨token, details, s', hl⟩
  | applied effect => exact absurd hc (by decide : ([] : Str) ≠ NOT_FOUND)
  | error code message => exact absurd hc (by decide : ([] : Str) ≠ NOT_FOUND)

theorem source_outcome_independent_below :
    ∃ token token' details details' s' t',
      loadA .undefined = some (.bad token NOT_FOUND details, s') ∧
      loadA belowC = some (.bad token' NOT_FOUND details', t') ∧ details = details' := by
  obtain ⟨token, details, s', h⟩ := loadA_code .undefined (by decide +kernel)
  obtain ⟨token', details', t', h'⟩ := loadA_code belowC (by decide +kernel)
  refine ⟨token, token', details, details', s', t', h, h', ?_⟩
  have hrun (m : Value) (r : ActionResult × Shared Bool) (hr : loadA m = some r) :
      Exec (S := sig Bool)
        (Handles ((Store.map danglingFiles).world MultiSourceOptions.new granted))
        (body aloneEngine) (Shared.init.publish true)
        (directiveAction MultiSourceOptions.new aloneEngine.float m (.alone "a".toList)) r.1 r.2 :=
    exec_of_interpretWith (handles_answer danglingResolve granted)
      (exec_of_interpret (handles_answer danglingResolve granted)) hr
  have hstanding (m : Value) (hm : metaMultisourceString m REPORT_TICKET = none) :
      Standing (Shared.init.publish true) m :=
    ⟨rfl, fun _ _ => rfl, fun _ ht => absurd (ht.symm.trans hm) (by simp)⟩
  have hbad (token : Token) (details : Details) :
      ¬ FailedByChain (.bad token NOT_FOUND details) := by
    rintro ⟨_, code, _, he, hc⟩
    obtain ⟨-, rfl, -⟩ := ActionResult.bad.inj he
    exact hc.elim (by decide) (by decide)
  have hfull : ∀ m, sourcePath m = none → LoadsFrom aloneEngine (.map danglingFiles) m
      (.alone "a".toList) "a.jsonic".toList := fun m hm => by
    have he : (Store.map danglingFiles).resolve MultiSourceOptions.new (some "a".toList) m =
        (Store.map danglingFiles).resolve MultiSourceOptions.new (some "a".toList) .undefined :=
      Store.resolve_congr _ _ _ (hm.trans (by decide))
    unfold LoadsFrom
    rw [show referenceOf aloneEngine.float (Site.alone "a".toList).body = some "a".toList from rfl,
      he]
    decide +kernel
  rcases source_outcome_independent rfl (.map danglingFiles) (fun _ _ _ => rfl)
    (hfull .undefined (by decide)) (hfull belowC (by decide)) (hstanding .undefined (by decide))
    (hstanding belowC (by decide)) (hrun _ _ h) (hrun _ _ h') (hbad _ _) (hbad _ _) with
    ⟨v, hv, -⟩ | ⟨_, _, code, details'', he, he'⟩
  · exact absurd hv (by simp)
  · obtain ⟨-, -, rfl⟩ := ActionResult.bad.inj he
    obtain ⟨-, -, rfl⟩ := ActionResult.bad.inj he'
    rfl

end MultiSource
