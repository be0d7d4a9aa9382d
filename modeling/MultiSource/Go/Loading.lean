import MultiSource.Go.Nesting
import MultiSource.Go.Sources
import MultiSource.Lib.Inclusion

/-!
# What a document loads in the Go port

The sources of a resolver, parsed by an engine that reads nothing but their text, are texts that
include each other. A parse of the plugin is a depth-first load of them.
-/

namespace MultiSource.Go

open Interaction Inclusion Inclusion.Library

/-- A parse as a text: its references by the path each names, and what the action does with a
value. -/
def Parse.text (engine : Engine) : Parse → Text Str Value Failure
  | .done result => .done result
  | .act site next => .refer (site.reference engine) fun v => (next (site.effect v)).text engine

/-- The engine reads the text of a source and nothing else. -/
def Textual (engine : Engine) (tree : Str → Parse) : Prop :=
  ∀ src parseMeta, engine.parse src parseMeta = tree src

/-- The source a reference stands in, none at the top level. -/
def standing (parseMeta : Meta) : Option Str :=
  if metaSourcePath parseMeta = [] then none else some (metaSourcePath parseMeta)

section Library

variable (S : SourceSet) (engine : Engine) (tree : Str → Parse)

/-- The text of a source, by its kind: what is not parsed is a value already, and so is what is
empty. -/
def SourceSet.textOf (full : Str) : Text Str Value Failure :=
  let src := (S.text full).getD []
  match getProcessor (extKind full) defaultProcessors with
  | .raw => .done (.ok (.string src))
  | .jsonic => if src = [] then .done (.ok .null) else (tree src).text engine

/-- The sources as texts that include each other. -/
def SourceSet.library : Library Str Str Value Failure where
  text := S.textOf engine tree
  names := S.names

/-- A document at its place. -/
def document (c : Call) : Place Str Str Value Failure :=
  (standing c.parseMeta, (tree c.src).text engine)

end Library

variable {S : SourceSet} {engine : Engine} {tree : Str → Parse}

/-! ## Resolutions -/

theorem baseFor_eq (opts : Options) (parseMeta : Meta) :
    baseFor opts parseMeta = baseAt opts (standing parseMeta) := by
  unfold baseFor standing
  dsimp only
  by_cases h : metaSourcePath parseMeta = []
  · rw [if_neg (not_not.mpr h), if_pos h]
    rfl
  · rw [if_pos h, if_neg h]
    rfl

theorem resolve_eq (S : SourceSet) (pathStr : Str) (parseMeta : Meta) :
    S.resolver.resolve S.opts pathStr parseMeta = S.resolve (standing parseMeta) pathStr := by
  unfold Resolver.resolve SourceSet.resolve
  rw [baseFor_eq]

theorem SourceSet.Finite.library (h : S.Finite) : (S.library engine tree).Finite := h

/-! ## The metadata of a nested parse -/

theorem standing_childMeta (parseMeta : Meta) {res : Resolution} (h : res.full ≠ []) :
    standing (childMeta parseMeta res) = some res.full := by
  unfold standing
  rw [metaSourcePath_childMeta, if_neg h]

/-- A nested parse collects dependencies where the one around it does. -/
theorem metaDeps_childMeta (parseMeta : Meta) (res : Resolution) :
    metaDeps (childMeta parseMeta res) = metaDeps parseMeta := by
  unfold metaDeps
  rw [multisourceOf_childMeta, Option.bind_some, Entries.get_insert_of_ne (by decide),
    Entries.get_insert_of_ne (by decide)]
  cases multisourceOf parseMeta <;> rfl

/-! ## A parse is a load -/

/-- An edge followed, as it is recorded. -/
def edgeEvent (e : Option Str × Str) : Event sig := ⟨.depend (e.1.getD TOP) e.2, ()⟩

/-- What a parse records of the edges it follows. -/
def recorded (parseMeta : Meta) (es : List (Option Str × Str)) : List (Event sig) :=
  if metaDeps parseMeta then es.map edgeEvent else []

/-- The code a fault is reported with, however far in. -/
def Coded : Library.Fault Str Str Failure → Str → Prop
  | .own _ err, code => code = err.code ∨ err.code = [] ∧ code = "unexpected".toList
  | .missing .., code => code = NOT_FOUND
  | .cycle .., code => code = CYCLE

/-- The plugin answers a load: a value is that value, and a fault an error with its code. -/
inductive Answers : Except (Library.Fault Str Str Failure) Value → Except Failure Value → Prop
  | value (v : Value) : Answers (.ok v) (.ok v)
  | error {f : Library.Fault Str Str Failure} {err : Failure} : Coded f err.code →
      Answers (.error f) (.error err)

theorem recorded_append (parseMeta : Meta) (es es' : List (Option Str × Str)) :
    recorded parseMeta (es ++ es') = recorded parseMeta es ++ recorded parseMeta es' := by
  unfold recorded
  split_ifs
  · rw [List.map_append]
  · rfl

theorem recorded_childMeta (parseMeta : Meta) (res : Resolution) (es : List (Option Str × Str)) :
    recorded (childMeta parseMeta res) es = recorded parseMeta es := by
  unfold recorded
  rw [metaDeps_childMeta]

/-- Raising a nested error again keeps its code. -/
theorem Coded.nested {f : Library.Fault Str Str Failure} {err : Failure} (h : Coded f err.code)
    (pathStr : Str) : Coded f (nestedReport pathStr err).1 := by
  unfold nestedReport
  dsimp only
  split_ifs with he
  · rw [he] at h
    cases f with
    | own place own =>
      rcases h with h | ⟨-, h⟩
      · exact .inr ⟨h.symm, rfl⟩
      · cases h
    | missing => cases h
    | cycle => cases h
  · exact h

variable {parseMeta : Meta} {site : Site}

theorem evals_recorded (b : Call → Program (Except Failure Value)) (parseMeta : Meta)
    (full : Str) : Evals (S := sig) b (recordEdge parseMeta full)
      (recorded parseMeta [(standing parseMeta, full)]) () := by
  unfold recordEdge recorded standing edgeEvent
  dsimp only
  split_ifs with hd hs
  · refine evals_op.mpr ⟨(), [], ?_, .ret ()⟩
    rw [if_pos hs]
    rfl
  · refine evals_op.mpr ⟨(), [], ?_, .ret ()⟩
    rw [if_neg hs]
    rfl
  · exact .ret ()

namespace SourceSet

/-- The action on a reference that is not found. -/
theorem action_missing
    (h : S.names (standing parseMeta) (site.reference engine) = none) :
    ∃ report : Report, report.1 = NOT_FOUND ∧
      S.resolver.action S.opts engine parseMeta site = .ret (site.bad report) := by
  have hf := names_eq_none.mp h
  rw [← resolve_eq] at hf
  refine ⟨missingReport (site.reference engine)
    (S.resolver.resolve S.opts (site.reference engine) parseMeta), rfl, ?_⟩
  unfold Resolver.action Resolver.resolveSource
  dsimp only
  rw [if_neg (by simp [hf])]
  rfl

/-- The action on a reference to a source around it. -/
theorem action_cycle {full : Str}
    (h : S.names (standing parseMeta) (site.reference engine) = some full)
    (hm : full ∈ metaChain parseMeta) :
    ∃ report : Report, report.1 = CYCLE ∧
      S.resolver.action S.opts engine parseMeta site = .ret (site.bad report) := by
  obtain ⟨hf, rfl⟩ := names_eq_some.mp h
  have hne := (resolve_found hf).named
  rw [← resolve_eq] at hf hm hne
  have hloop : ∃ loop, S.resolver.action S.opts engine parseMeta site = .ret (site.bad
      (cycleReport (S.resolver.resolve S.opts (site.reference engine) parseMeta).full loop)) := by
    unfold Resolver.action Resolver.resolveSource
    dsimp only
    rw [if_pos hf, fullPath_of_ne_nil hne]
    cases hi : (metaChain parseMeta).findIdx?
        (· = (S.resolver.resolve S.opts (site.reference engine) parseMeta).full) with
    | none => exact absurd (List.findIdx?_eq_none_iff.mp hi _ hm) (by simp)
    | some i => exact ⟨_, rfl⟩
  obtain ⟨loop, he⟩ := hloop
  exact ⟨_, rfl, he⟩

/-- The action on any other reference: the edge is recorded, the source processed, and the result
concluded from. -/
theorem evals_loaded (b : Call → Program (Except Failure Value)) {full : Str}
    {tr : List (Event sig)} {loaded : Loaded}
    (h : S.names (standing parseMeta) (site.reference engine) = some full)
    (hm : full ∉ metaChain parseMeta)
    (hp : ∀ res, res = S.resolve (standing parseMeta) (site.reference engine) →
      Evals (S := sig) b (process res (childMeta parseMeta res)) tr loaded) :
    Evals (S := sig) b (S.resolver.action S.opts engine parseMeta site)
      (recorded parseMeta [(standing parseMeta, full)] ++ tr)
      (conclude site (site.reference engine) loaded) := by
  obtain ⟨hf, rfl⟩ := names_eq_some.mp h
  have hidx : (metaChain parseMeta).findIdx?
      (· = (S.resolve (standing parseMeta) (site.reference engine)).full) = none := by
    apply List.findIdx?_eq_none_iff.mpr
    intro p hp
    simp only [decide_eq_false_iff_not]
    rintro rfl
    exact hm hp
  have hload : Evals (S := sig) b
      (S.resolver.resolveSource S.opts (site.reference engine) parseMeta)
      (recorded parseMeta [(standing parseMeta,
        (S.resolve (standing parseMeta) (site.reference engine)).full)] ++ tr) loaded := by
    unfold Resolver.resolveSource
    dsimp only
    rw [resolve_eq, if_pos hf, fullPath_of_ne_nil (resolve_found hf).named, hidx]
    exact evals_bind.mpr ⟨_, _, _, rfl, evals_recorded b parseMeta _, hp _ rfl⟩
  rw [← List.append_nil (recorded _ _ ++ tr)]
  exact evals_bind.mpr ⟨_, _, _, rfl, hload, .ret _⟩

end SourceSet

/-- What a load makes of the answer of a nested parse. -/
def Loaded.ofAnswer : Except Failure Value → Loaded
  | .ok v => .value v
  | .error err => .failed err

/-- A source is a value already, or it is parsed again. -/
theorem process_cases (engine : Engine) (tree : Str → Parse) {res : Resolution}
    (hres : Found S.text res) :
    (∃ v, S.textOf engine tree res.full = .done (.ok v) ∧
      ∀ m, process res m = .ret (.value v)) ∨
    S.textOf engine tree res.full = (tree res.src).text engine ∧
      ∀ m, process res m = .call ⟨res.src, m⟩ fun a => .ret (Loaded.ofAnswer a) := by
  unfold SourceSet.textOf process
  dsimp only
  rw [hres.text_eq, hres.kind_eq, Option.getD_some]
  cases getProcessor (extKind res.full) defaultProcessors with
  | raw => exact .inl ⟨_, rfl, fun _ => rfl⟩
  | jsonic =>
    unfold jsonicProcessor
    dsimp only
    split_ifs with hs
    · exact .inl ⟨_, rfl, fun _ => rfl⟩
    · refine .inr ⟨rfl, fun m => congrArg _ (funext fun a => ?_)⟩
      cases a <;> rfl

theorem recorded_nil (parseMeta : Meta) : recorded parseMeta [] = [] := by
  unfold recorded
  split_ifs <;> rfl

/-- Processing a source comes to what its text loads as, if a parse of it does. -/
theorem evals_process {res : Resolution} {es : List (Option Str × Str)}
    {c : List Str} {o : Except (Library.Fault Str Str Failure) Value} {P : SourceSet → Prop}
    (htree : Textual engine tree) (hres : Found S.text res)
    (hload : (S.library engine tree).Loads c ((S.library engine tree).place res.full) es o)
    (ih : ∀ rest, (S.library engine tree).place res.full =
        (standing (childMeta parseMeta res), rest.text engine) →
      ∃ a, Answers o a ∧ ∀ S', P S' → Evals (S := sig) (S'.body engine)
        (S'.resolver.run S'.opts engine (childMeta parseMeta res) rest)
        (recorded (childMeta parseMeta res) es) a) :
    ∃ a, Answers o a ∧ ∀ S', P S' → Evals (S := sig) (S'.body engine)
      (process res (childMeta parseMeta res)) (recorded parseMeta es) (Loaded.ofAnswer a) := by
  rcases process_cases engine tree hres with ⟨v, ht, hp⟩ | ⟨ht, hp⟩
  · rw [place, show (S.library engine tree).text res.full = _ from ht] at hload
    cases hload
    refine ⟨.ok v, .value v, fun S' _ => ?_⟩
    rw [hp, recorded_nil]
    exact .ret _
  · obtain ⟨a, ha, he⟩ := ih (tree res.src) (by rw [standing_childMeta _ hres.named, ← ht]; rfl)
    rw [recorded_childMeta] at he
    refine ⟨a, ha, fun S' h' => ?_⟩
    rw [hp, ← List.append_nil (recorded _ _)]
    refine .call ?_ (.ret _)
    rw [SourceSet.body, Resolver.body, htree]
    exact he S' h'

namespace SourceSet

theorem evals_run_bad {b : Call → Program (Except Failure Value)} {tr : List (Event sig)}
    {report : Report} {next : Effect → Parse}
    (h : Evals (S := sig) b (S.resolver.action S.opts engine parseMeta site) tr (site.bad report)) :
    Evals (S := sig) b (S.resolver.run S.opts engine parseMeta (.act site next)) tr
      (.error (engine.bad site.errorToken report.1 report.2)) := by
  rw [Resolver.run, ← List.append_nil tr]
  exact evals_bind.mpr ⟨_, _, _, rfl, h, .ret _⟩

theorem evals_run_applied {b : Call → Program (Except Failure Value)} {tr tr' : List (Event sig)}
    {effect : Effect} {next : Effect → Parse} {a : Except Failure Value}
    (h : Evals (S := sig) b (S.resolver.action S.opts engine parseMeta site) tr (.applied effect))
    (h' : Evals (S := sig) b (S.resolver.run S.opts engine parseMeta (next effect)) tr' a) :
    Evals (S := sig) b (S.resolver.run S.opts engine parseMeta (.act site next)) (tr ++ tr') a := by
  rw [Resolver.run]
  exact evals_bind.mpr ⟨_, _, _, rfl, h, h'⟩

end SourceSet

/-- A report of the plugin, raised at a token, answers the fault it is the code of. -/
theorem Answers.raised (engine : Engine) {f : Library.Fault Str Str Failure} {report : Report}
    (h : Coded f report.1) (token : Token) :
    Answers (.error f) (.error (engine.bad token report.1 report.2)) :=
  .error (by rwa [engine.bad_code])

/-- Other sources, among which every reference that `root` leads to resolves alike. -/
def SameSources (S : SourceSet) (engine : Engine) (tree : Str → Parse)
    (root : Place Str Str Value Failure) (S' : SourceSet) : Prop :=
  let L := S.library engine tree
  ∀ trail reference, L.Trail root trail → L.Inside (L.last root trail) reference →
    S'.resolve (L.last root trail).1 reference = S.resolve (L.last root trail).1 reference

theorem SameSources.refl (root : Place Str Str Value Failure) :
    SameSources S engine tree root S := fun _ _ _ _ => rfl

/-- An action depends on the sources by what its reference resolves to. -/
theorem SameSources.action {root : Place Str Str Value Failure} {S' : SourceSet}
    (hs : SameSources S engine tree root S') {trail : List Str} {next : Effect → Parse}
    (ht : (S.library engine tree).Trail root trail)
    (hr : Rests (S.library engine tree) ((S.library engine tree).last root trail)
      (standing parseMeta, (Parse.act site next).text engine)) :
    S'.resolver.action S'.opts engine parseMeta site =
      S.resolver.action S.opts engine parseMeta site := by
  have h := hs trail _ ht (hr.inside _ .here)
  rw [← hr.here, ← resolve_eq, ← resolve_eq] at h
  unfold Resolver.action Resolver.resolveSource
  rw [h]

/-- Along a load of a text the plugin parses it: it records the edges that are followed, and answers
with what the load comes to. The answer is the same for all sources that resolve alike. -/
theorem evals_run (htree : Textual engine tree) {root p : Place Str Str Value Failure}
    {c trail : List Str} {es : List (Option Str × Str)}
    {o : Except (Library.Fault Str Str Failure) Value}
    (h : (S.library engine tree).Loads c p es o) {rest : Parse}
    (hp : p = (standing parseMeta, rest.text engine)) (hc : c = metaChain parseMeta)
    (ht : (S.library engine tree).Trail root trail)
    (hr : Rests (S.library engine tree) ((S.library engine tree).last root trail) p) :
    ∃ a, Answers o a ∧ ∀ S', SameSources S engine tree root S' →
      Evals (S := sig) (S'.body engine) (S'.resolver.run S'.opts engine parseMeta rest)
        (recorded parseMeta es) a := by
  have nested {parseMeta : Meta} {reference full : Str}
      (hn : S.names (standing parseMeta) reference = some full) :
      ∃ res, res = S.resolve (standing parseMeta) reference ∧ Found S.text res ∧ res.full = full ∧
        metaChain (childMeta parseMeta res) = metaChain parseMeta ++ [full] := by
    obtain ⟨hf, rfl⟩ := SourceSet.names_eq_some.mp hn
    have hfound := SourceSet.resolve_found hf
    exact ⟨_, rfl, hfound, rfl, metaChain_childMeta _ _ hfound.named⟩
  induction h generalizing parseMeta rest trail with
  | value =>
    cases rest with
    | act site next => cases hp
    | done result =>
      cases hp
      exact ⟨_, .value _, fun _ _ => recorded_nil parseMeta ▸ .ret _⟩
  | own =>
    cases rest with
    | act site next => cases hp
    | done result =>
      cases hp
      exact ⟨_, .error (.inl rfl), fun _ _ => recorded_nil parseMeta ▸ .ret _⟩
  | missing hn =>
    cases rest with
    | done result => cases hp
    | act site next =>
      cases hp
      obtain ⟨report, hcode, he⟩ := SourceSet.action_missing hn
      rw [recorded_nil]
      refine ⟨_, .raised engine (f := .missing _ _) hcode site.errorToken, fun S' hs => ?_⟩
      exact SourceSet.evals_run_bad (hs.action ht hr ▸ he ▸ .ret _)
  | cycle hn hm =>
    cases rest with
    | done result => cases hp
    | act site next =>
      cases hp
      obtain ⟨report, hcode, he⟩ := SourceSet.action_cycle hn (hc ▸ hm)
      rw [recorded_nil]
      refine ⟨_, .raised engine (f := .cycle _ _) hcode site.errorToken, fun S' hs => ?_⟩
      exact SourceSet.evals_run_bad (hs.action ht hr ▸ he ▸ .ret _)
  | fails hn hm hload ih =>
    cases rest with
    | done result => cases hp
    | act site next =>
      cases hp
      subst hc
      obtain ⟨res, hres, hfound, rfl, hchain⟩ := nested hn
      obtain ⟨a, ha, he⟩ := evals_process htree hfound hload fun rest hp =>
        ih hp hchain.symm (ht.snoc (hr.refers hn)) (.concat ..)
      cases ha with
      | error hcode =>
        refine ⟨_, .raised engine (hcode.nested (site.reference engine)) site.errorToken,
          fun S' hs => ?_⟩
        have he := SourceSet.evals_loaded _ hn hm fun res' hres' =>
          (hres'.trans hres.symm) ▸ he S' hs
        rw [← recorded_append, ← hs.action ht hr] at he
        exact SourceSet.evals_run_bad he
  | next hn hm hload _ ih ih' =>
    cases rest with
    | done result => cases hp
    | act site next =>
      cases hp
      subst hc
      obtain ⟨res, hres, hfound, rfl, hchain⟩ := nested hn
      obtain ⟨a, ha, he⟩ := evals_process htree hfound hload fun rest hp =>
        ih hp hchain.symm (ht.snoc (hr.refers hn)) (.concat ..)
      cases ha with
      | value v =>
        obtain ⟨a, ha, he'⟩ := ih' rfl rfl ht (hr.next hn (hload.ends rfl))
        refine ⟨a, ha, fun S' hs => ?_⟩
        have he := SourceSet.evals_loaded _ hn hm fun res' hres' =>
          (hres'.trans hres.symm) ▸ he S' hs
        rw [← recorded_append, ← hs.action ht hr] at he
        rw [recorded_append]
        exact SourceSet.evals_run_applied he (he' S' hs)

/-! ## What a document comes to -/

/-- A document that loads has one run over all sources that resolve alike, the same, with the edges
followed recorded and an answer to what the load comes to. -/
theorem evals_of_loads (htree : Textual engine tree) {c : Call} {es : List (Option Str × Str)}
    {o : Except (Library.Fault Str Str Failure) Value}
    (h : (S.library engine tree).Loads (metaChain c.parseMeta) (document engine tree c) es o) :
    ∃ a, Answers o a ∧ ∀ S', SameSources S engine tree (document engine tree c) S' →
      ∀ tr b, Evals (S := sig) (S'.body engine) (S'.body engine c) tr b ↔
        tr = recorded c.parseMeta es ∧ b = a := by
  obtain ⟨a, ha, he⟩ := evals_run htree h rfl rfl .nil (.refl _)
  refine ⟨a, ha, fun S' hs tr b => ?_⟩
  have hbody :
      Evals (S := sig) (S'.body engine) (S'.body engine c) (recorded c.parseMeta es) a := by
    rw [SourceSet.body, Resolver.body, htree]
    exact he S' hs
  constructor
  · exact fun h => h.unique_events subsingleton_resp hbody
  · rintro ⟨rfl, rfl⟩
    exact hbody

/-- Of finitely many sources every document loads. -/
theorem evals_document (hfin : S.Finite) (htree : Textual engine tree) (c : Call) : ∃ es o a,
    (S.library engine tree).Loads (metaChain c.parseMeta) (document engine tree c) es o ∧
    Answers o a ∧ ∀ S', SameSources S engine tree (document engine tree c) S' →
      ∀ tr b, Evals (S := sig) (S'.body engine) (S'.body engine c) tr b ↔
        tr = recorded c.parseMeta es ∧ b = a := by
  obtain ⟨es, o, h⟩ := exists_loads (L := S.library engine tree) hfin
    (metaChain c.parseMeta) (document engine tree c)
  obtain ⟨a, ha, hall⟩ := evals_of_loads htree h
  exact ⟨es, o, a, h, ha, hall⟩

/-- With any resolver that finds finitely many sources, for every document and under any metadata:
the parse ends. It has a value exactly if the document is sound, the value of its text; and any
failure is that of a text, a reference or a loop the document leads to, by its code. -/
theorem document_loads_iff_sound (S : SourceSet) (hfin : S.Finite) (engine : Engine)
    (tree : Str → Parse) (htree : Textual engine tree) (c : Call) :
    let L := S.library engine tree
    let Ran := Evals (S := sig) (S.body engine) (S.body engine c)
    (∃ tr a, Ran tr a) ∧ ∀ tr a, Ran tr a →
      ((∃ v, a = .ok v) ↔ L.Sound (metaChain c.parseMeta) (document engine tree c)) ∧
      (∀ v, a = .ok v → L.Ends (document engine tree c) (.ok v)) ∧
      ∀ err, a = .error err →
        ∃ f, Blames L (metaChain c.parseMeta) (document engine tree c) f ∧ Coded f err.code := by
  intro L Ran
  obtain ⟨es, o, a₀, h, hans, hall⟩ := evals_document hfin htree c
  refine ⟨⟨_, _, (hall S (.refl _) _ _).mpr ⟨rfl, rfl⟩⟩, fun tr a ha => ?_⟩
  obtain ⟨-, rfl⟩ := (hall S (.refl _) _ _).mp ha
  rw [← loads_iff_sound (L := L) hfin]
  cases hans with
  | value v =>
    refine ⟨iff_of_true ⟨v, rfl⟩ ⟨es, v, h⟩, fun w hw => ?_, fun err he => (by cases he)⟩
    obtain rfl := Except.ok.inj hw
    exact h.ends rfl
  | @error f err hcode =>
    refine ⟨iff_of_false (by simp) ?_, fun w hw => (by cases hw), fun err' he => ?_⟩
    · rintro ⟨es', v, h'⟩
      cases (h.unique h').2
    · obtain rfl := Except.error.inj he
      exact ⟨f, h.blames rfl (List.append_nil _).symm .nil (.refl _), hcode⟩

/-- A text without references is sound, and a reference to a dangling source is not. -/
theorem document_loads_iff_sound_dangling :
    let L := (SourceSet.ofMap dangling ⟨[], []⟩).library aloneEngine parseAlone
    L.Sound [] (document aloneEngine parseAlone ⟨"x".toList, []⟩) ∧
      ¬ L.Sound [] (document aloneEngine parseAlone ⟨"@a.jsonic".toList, []⟩) := by
  intro L
  have htree : Textual aloneEngine parseAlone := fun _ _ => rfl
  have hfin := SourceSet.finite_ofMap dangling ⟨[], []⟩
  have hx : Evals (S := sig) ((SourceSet.ofMap dangling ⟨[], []⟩).body aloneEngine)
      ((SourceSet.ofMap dangling ⟨[], []⟩).body aloneEngine ⟨"x".toList, []⟩) []
      (.ok (.string "x".toList)) :=
    .ret _
  obtain ⟨err, ⟨tr, h⟩, -⟩ := raised dangling_innermost
  refine ⟨?_, fun hs => ?_⟩
  · exact ((document_loads_iff_sound _ hfin aloneEngine parseAlone htree _).2 _ _ hx).1.mp ⟨_, rfl⟩
  · obtain ⟨v, hv⟩ :=
      ((document_loads_iff_sound _ hfin aloneEngine parseAlone htree _).2 _ _ h).1.mpr hs
    cases hv

end MultiSource.Go
