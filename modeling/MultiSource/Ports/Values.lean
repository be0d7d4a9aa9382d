import MultiSource.Capped
import MultiSource.Go.Loading
import MultiSource.Ports.Bases

/-!
# The value of a document in Go and in Rust

Where both engines read texts alike, the two plugins load the same library of texts, one as long as
its cap lasts and the other without one. So they come to the same value, or fail alike.
-/

namespace MultiSource.Ports

open Interaction Inclusion Inclusion.Library

/-! ## Kinds -/

/-- The last segment by slashes ends in the last segment by either separator. -/
theorem afterLast_slash (p : Str) : afterLast (· = '/') p = afterLast isSep p ∨
    ∃ q, afterLast (· = '/') p = q ++ '\\' :: afterLast isSep p := by
  have hslash {d : Char} (h : isSep d = false) : decide (d = '/') = false := by
    simp only [isSep, Bool.or_eq_false_iff] at h
    exact h.1
  cases hr : rsplit isSep p with
  | none =>
    have hno := rsplit_eq_none.mp hr
    rw [afterLast_of_forall hno, afterLast_of_forall fun d hd => hslash (hno d hd)]
    exact .inl rfl
  | some ab =>
    obtain ⟨dir, seg⟩ := ab
    obtain ⟨c, hc, rfl, hseg⟩ := rsplit_eq_some hr
    have hseg' : ∀ d ∈ seg, decide (d = '/') = false := fun d hd => hslash (hseg d hd)
    rw [afterLast_append_cons hc hseg]
    by_cases hcs : c = '/'
    · exact .inl (afterLast_append_cons (by simpa using hcs) hseg')
    · have hcb : c = '\\' := by simpa [isSep, hcs] using hc
      subst hcb
      right
      cases hd : rsplit (· = '/') dir with
      | none =>
        refine ⟨dir, afterLast_of_forall fun d hmem => ?_⟩
        rcases List.mem_append.mp hmem with hmem | hmem
        · exact rsplit_eq_none.mp hd d hmem
        · rcases List.mem_cons.mp hmem with rfl | hmem
          · rfl
          · exact hseg' d hmem
      | some xy =>
        obtain ⟨x, y⟩ := xy
        obtain ⟨s, hs, rfl, hy⟩ := rsplit_eq_some hd
        refine ⟨y, ?_⟩
        rw [List.append_assoc, List.cons_append]
        refine afterLast_append_cons hs fun d hmem => ?_
        rcases List.mem_append.mp hmem with hmem | hmem
        · exact hy d hmem
        · rcases List.mem_cons.mp hmem with rfl | hmem
          · rfl
          · exact hseg' d hmem

/-- A kind is the same in both ports, or unknown in both: Go reads past a backslash. -/
theorem goExtKind_eq (full : Str) : Go.extKind full = extKind (some full) ∨
    extKind (some full) = NONE ∧ '\\' ∈ Go.extKind full := by
  unfold Go.extKind Go.ext extKind
  dsimp only
  rcases afterLast_slash full with h | ⟨q, h⟩
  · rw [h]
    cases rsplit (· = '.') (afterLast isSep full) <;> exact .inl rfl
  · rw [h]
    cases hr : rsplit (· = '.') (afterLast isSep full) with
    | some ab =>
      obtain ⟨a, b⟩ := ab
      obtain ⟨d, hd, he, hb⟩ := rsplit_eq_some hr
      have hq : q ++ '\\' :: afterLast isSep full = (q ++ '\\' :: a) ++ d :: b := by simp [he]
      rw [hq, rsplit_append_cons hd hb]
      exact .inl rfl
    | none =>
      cases hr' : rsplit (· = '.') (q ++ '\\' :: afterLast isSep full) with
      | none => exact .inl rfl
      | some ab =>
        obtain ⟨a, b⟩ := ab
        obtain ⟨d, hd, he, hb⟩ := rsplit_eq_some hr'
        refine .inr ⟨rfl, (?_ : '\\' ∈ b)⟩
        obtain rfl : d = '.' := of_decide_eq_true hd
        rcases List.append_eq_append_iff.mp he with ⟨t, -, ht⟩ | ⟨t, -, ht⟩
        · have hdot : '.' ∈ '\\' :: afterLast isSep full := by
            rw [ht]
            simp
          rcases List.mem_cons.mp hdot with hdot | hdot
          · cases hdot
          · simpa using rsplit_eq_none.mp hr '.' hdot
        · cases t with
          | nil => cases (List.cons.inj ht).1
          | cons e t =>
            rw [(List.cons.inj ht).2]
            simp

theorem goProcessor_eq (full : Str) : Go.getProcessor (Go.extKind full) Go.defaultProcessors =
    if isParsed full then .jsonic else .raw := by
  have hraw {kind : Str} (h₁ : kind ≠ "jsonic".toList) (h₂ : kind ≠ "jsc".toList) :
      Go.getProcessor kind Go.defaultProcessors = .raw := by
    unfold Go.getProcessor Go.defaultProcessors
    rw [Entries.get, Entries.get, if_neg (Ne.symm h₁), Entries.get, if_neg (Ne.symm h₂)]
    split_ifs <;> rfl
  unfold isParsed
  rcases goExtKind_eq full with h | ⟨h, hmem⟩
  · rw [h]
    by_cases h₁ : extKind (some full) = "jsonic".toList
    · rw [h₁]
      rfl
    · by_cases h₂ : extKind (some full) = "jsc".toList
      · rw [h₂]
        rfl
      · rw [hraw h₁ h₂, decide_eq_false h₁, decide_eq_false h₂]
        rfl
  · rw [h, hraw]
    · rfl
    · intro he
      rw [he] at hmem
      simp at hmem
    · intro he
      rw [he] at hmem
      simp at hmem

/-! ## Names -/

/-- The metadata in Go that says which source a reference stands in, and nothing else. -/
def goMetaFor : Option Str → Go.Meta
  | none => []
  | some path => goMetaAt path

theorem metaSourcePath_goMetaFor (path : Option Str) :
    Go.metaSourcePath (goMetaFor path) = path.getD [] := by
  cases path <;> rfl

/-- The base path is no source, and no source ends in a separator. -/
structure PlainKeys (files : Entries Str) (path : Str) : Prop where
  base : path = [] ∨ files.get path = none
  keys : ∀ key, (files.get key).isSome = true → ¬ EndsInSep key

/-- Where a reference stands: at the top, or in a source of the map. -/
def StandsIn (files : Entries Str) (path : Option Str) : Prop :=
  ∀ key, path = some key → key ≠ [] ∧ (files.get key).isSome = true

variable {files : Entries Str} {options : MultiSourceOptions}

/-- Where it stands a reference names the same source in both ports. -/
theorem same_names (hkeys : PlainKeys files options.path) {path : Option Str}
    (hpath : StandsIn files path) (reference : Option Str) :
    (Go.SourceSet.ofMap files (goOptions options)).names path (reference.getD []) =
      ((Store.map ⟨files⟩).sources options).names reference path := by
  have hread : ReadAsIs files ⟨options, MultiSource.metaAt path⟩ := by
    unfold ReadAsIs
    rw [sourcePath_metaAt]
    cases path with
    | none => exact hkeys.base
    | some key =>
      obtain ⟨hne, hkey⟩ := hpath key rfl
      cases key with
      | nil => exact absurd rfl hne
      | cons c key => exact .inl ⟨hkey, hkeys.keys _ hkey⟩
  have hstanding : Go.standing (goMetaFor path) = path := by
    unfold Go.standing
    rw [metaSourcePath_goMetaFor]
    cases path with
    | none => rfl
    | some key => exact if_neg (hpath key rfl).1
  have hbase := (same_base_iff files ⟨options, MultiSource.metaAt path⟩ (goMetaFor path) reference
    (by rw [metaSourcePath_goMetaFor, sourcePath_metaAt])).mpr hread
  have hfound := hbase.found
  have hsource := hbase.source
  have hresolve : Go.resolve files (goOptions options) (reference.getD []) (goMetaFor path) =
      (Go.SourceSet.ofMap files (goOptions options)).resolve path (reference.getD []) := by
    have h := Go.resolve_eq (.ofMap files (goOptions options)) (reference.getD []) (goMetaFor path)
    rwa [hstanding] at h
  rw [hresolve] at hfound hsource
  unfold Go.SourceSet.names SourceSet.names
  show (if ((Go.SourceSet.ofMap files (goOptions options)).resolve path
      (reference.getD [])).found then _ else _) =
    if ((MapResolver.mk files).resolve reference ⟨options, MultiSource.metaAt path⟩).found then
      ((MapResolver.mk files).resolve reference ⟨options, MultiSource.metaAt path⟩).spec.full
    else none
  rw [hfound]
  split_ifs with h
  · exact (hsource h).1.symm
  · rfl

/-! ## What a document comes to in Rust -/

/-- An answer that is up to the cap of the Rust plugin or to a thread that was refused. -/
def LimitedAnswer (refused : Str → Prop) (answer : Except TabnasError Value) : Prop :=
  ∃ error, answer = .error error ∧
    (error.code = DEPTH ∨ error.code = "internal".toList ∧ ∃ reason, refused reason)

/-- Every run of a document in Rust is a load of its text, unless it is at its cap or was refused a
thread. -/
theorem limited_or_loads {I : Type} {engine : Engine I options.markchar} {tree : Str → Parse}
    (hproc : options.processor = defaultProcessors) (htree : Textual engine tree) {S : SourceSet}
    {resolve : Option Str → Value → Resolution} {refused : Str → Prop}
    (hS : S.Serves (World.of resolve refused : World I)) {parser : I} {src : Str}
    {parseMeta : Value} (hm : Unmarked parseMeta) {s s' : Shared I} (hs : s.slots = [])
    {answer : Except TabnasError Value}
    (h : Exec (S := sig I) (Handles (World.of resolve refused)) (body engine) s
      (body engine (.parse parser src parseMeta)) answer s') :
    LimitedAnswer refused answer ∨ ∃ outcome es o, Answers outcome answer ∧ Tells o outcome ∧
      (S.library engine.float tree).Loads [] (none, (tree src).text engine.float) es o := by
  obtain ⟨outcome, hcomes, hanswers⟩ := exec_comes hproc hS htree hm hs h
  rcases hcomes.loads with hl | ⟨es, o, hload, ht⟩
  · left
    cases hl with
    | depth hcode =>
      obtain ⟨error, rfl, hc, -⟩ := hanswers
      exact ⟨error, rfl, .inl (hc.trans hcode)⟩
    | thread hr hcode =>
      obtain ⟨error, rfl, hc, -⟩ := hanswers
      exact ⟨error, rfl, .inr ⟨hc.trans hcode, _, hr⟩⟩
  · exact .inr ⟨outcome, es, o, hanswers, ht, hload⟩

/-! ## Both ports on the same sources -/

/-- A reference in Rust, and what Go makes of it. -/
def SameReference (reference : Option Str) (goReference : Str) : Prop :=
  goReference = reference.getD []

/-- Errors of the two engines with one code. -/
def SameCode (e : OwnError) (goError : Go.Failure) : Prop := goError.code = e.error.code

/-- The two plugins with the default processors, under engines that read texts alike: with the same
references in the same places, going on alike from each value, and ending alike. -/
structure Twins (I : Type) where
  options : MultiSourceOptions
  engine : Engine I options.markchar
  tree : Str → Parse
  goEngine : Go.Engine
  goTree : Str → Go.Parse
  processor_eq : options.processor = defaultProcessors
  textual : Textual engine tree
  goTextual : Go.Textual goEngine goTree
  alike : ∀ src, Alike SameReference SameCode ((tree src).text engine.float)
    ((goTree src).text goEngine)

namespace Twins

variable {I : Type} (t : Twins I) (S : SourceSet) (G : Go.SourceSet)

/-- A document at its place, in Rust. -/
abbrev document (src : Str) : Place Str (Option Str) Value OwnError :=
  (none, (t.tree src).text t.engine.float)

/-- Two sets of sources are the same to a document: each reference that it leads to names the same
source in both, with the same text. None that is parsed is empty. -/
structure Meets (src : Str) : Prop where
  names : let L := S.library t.engine.float t.tree
    ∀ trail reference, L.Trail (t.document src) trail →
      L.Inside (L.last (t.document src) trail) reference →
      G.names (L.last (t.document src) trail).1 (reference.getD []) =
        S.names reference (L.last (t.document src) trail).1
  text : ∀ key, (S.library t.engine.float t.tree).Reached (t.document src) key →
    G.text key = S.text key
  written : ∀ key, (S.library t.engine.float t.tree).Reached (t.document src) key →
    isParsed key = true → S.text key ≠ some []

variable {t S G}

/-- What is reached has a text. -/
theorem text_of_reached {src key : Str}
    (h : (S.library t.engine.float t.tree).Reached (t.document src) key) :
    ∃ text, S.text key = some text := by
  obtain ⟨trail, ht⟩ := h
  obtain ⟨-, reference, -, hn⟩ := ht.of_concat
  obtain ⟨spec, text, search, hget, -⟩ := SourceSet.of_names hn
  exact ⟨text, hget⟩

theorem Meets.simulates {src : Str} (h : t.Meets S G src) :
    Simulates (S.library t.engine.float t.tree) (G.library t.goEngine t.goTree) SameReference
      SameCode (t.document src) where
  names trail reference goReference ht hi he := by
    subst he
    exact h.names trail reference ht hi
  text key hkey := by
    obtain ⟨text, hget⟩ := text_of_reached hkey
    show Alike _ _
      (if isParsed key then (t.tree ((S.text key).getD [])).text _ else
        .done (.ok (.string ((S.text key).getD []))))
      (G.textOf t.goEngine t.goTree key)
    unfold Go.SourceSet.textOf
    dsimp only
    rw [goProcessor_eq, h.text key hkey, hget, Option.getD_some]
    cases hp : isParsed key with
    | false => exact .value _
    | true =>
      have htext : text ≠ [] := fun he => h.written key hkey hp (he ▸ hget)
      rw [if_pos rfl, if_pos rfl]
      dsimp only
      rw [if_neg htext]
      exact t.alike text

/-- The plugins answer alike: the same value, or both an error, of a missing source, a loop, or
neither. -/
inductive SameAnswer : Except TabnasError Value → Except Go.Failure Value → Prop
  | value (v : Value) : SameAnswer (.ok v) (.ok v)
  | error {e : TabnasError} {e' : Go.Failure} : (e.code = NOT_FOUND ↔ e'.code = Go.NOT_FOUND) →
      (e.code = CYCLE ↔ e'.code = Go.CYCLE) → SameAnswer (.error e) (.error e')

/-- Codes that are none of the plugin's. -/
theorem own_codes {code : Str} (e : OwnError) (h : code = e.error.code ∨
    e.error.code = [] ∧ code = "unexpected".toList) : code ≠ NOT_FOUND ∧ code ≠ CYCLE := by
  rcases h with rfl | ⟨-, rfl⟩
  · exact ⟨e.own.1, e.own.2.1⟩
  · decide

theorem sameAnswer_of_matches {o : Except (Library.Fault Str (Option Str) OwnError) Value}
    {o' : Except (Library.Fault Str Str Go.Failure) Value} {outcome : Outcome}
    {answer : Except TabnasError Value} {goAnswer : Except Go.Failure Value}
    (hm : Matches SameReference SameCode o o') (ht : Tells o outcome) (ha : Answers outcome answer)
    (hg : Go.Answers o' goAnswer) : SameAnswer answer goAnswer := by
  cases hm with
  | value v =>
    cases ht
    cases hg
    obtain rfl := ha
    exact .value v
  | @own path e e' he =>
    cases hg with
    | @error _ err hcode =>
      have hgo : err.code ≠ NOT_FOUND ∧ err.code ≠ CYCLE := own_codes e (by
        rw [← he]
        exact hcode)
      cases ht with
      | own =>
        obtain rfl := ha
        exact .error (iff_of_false e.own.1 hgo.1) (iff_of_false e.own.2.1 hgo.2)
      | raised hr =>
        obtain ⟨error, rfl, hc, -⟩ := ha
        rw [← hc] at hr
        exact .error (iff_of_false hr.1 hgo.1) (iff_of_false hr.2.1 hgo.2)
  | missing _ =>
    cases hg with
    | @error _ err hcode =>
      have hcode : err.code = NOT_FOUND := hcode
      cases ht with
      | raised hr =>
        obtain ⟨error, rfl, hc, -⟩ := ha
        have hr : error.code = NOT_FOUND := hc.trans hr
        refine .error (iff_of_true hr hcode) (iff_of_false ?_ ?_)
        · rw [hr]
          decide
        · rw [hcode]
          decide
  | cycle _ _ =>
    cases hg with
    | @error _ err hcode =>
      have hcode : err.code = CYCLE := hcode
      cases ht with
      | raised hr =>
        obtain ⟨error, rfl, hc, -⟩ := ha
        have hr : error.code = CYCLE := hc.trans hr
        refine .error (iff_of_false ?_ ?_) (iff_of_true hr hcode)
        · rw [hr]
          decide
        · rw [hcode]
          decide

end Twins

section Documents

variable {I : Type} (t : Twins I) {refused : Str → Prop} {parser : I} {src : Str}
  {parseMeta : Value} {goMeta : Go.Meta} {s s' : Shared I} {answer : Except TabnasError Value}
  {tr : List (Event Go.sig)} {goAnswer : Except Go.Failure Value}

/-- Over sources that are the same to the document, every run of it in Rust and every run in Go
answer alike, unless the Rust run is at its cap or was refused a thread. -/
theorem Twins.Meets.answers {S : SourceSet} {G : Go.SourceSet} (hmeets : t.Meets S G src)
    {resolve : Option Str → Value → Resolution}
    (hS : S.Serves (World.of resolve refused : World I)) (hm : Unmarked parseMeta)
    (hgo : Go.multisourceOf goMeta = none) (hs : s.slots = [])
    (h : Exec (S := sig I) (Handles (World.of resolve refused)) (body t.engine) s
      (body t.engine (.parse parser src parseMeta)) answer s')
    (h' : Evals (S := Go.sig) (G.body t.goEngine) (G.body t.goEngine ⟨src, goMeta⟩) tr goAnswer) :
    Twins.SameAnswer answer goAnswer ∨ LimitedAnswer refused answer := by
  rcases limited_or_loads t.processor_eq t.textual hS hm hs h with
    hl | ⟨outcome, es, o, hanswers, ht, hload⟩
  · exact .inr hl
  · left
    have hstanding : Go.standing goMeta = none := by
      unfold Go.standing Go.metaSourcePath
      rw [hgo]
      rfl
    have hchain : Go.metaChain goMeta = [] := by
      unfold Go.metaChain Go.metaParents Go.metaSourcePath
      rw [hgo]
      rfl
    have hdoc : Go.document t.goEngine t.goTree ⟨src, goMeta⟩ =
        (none, (t.goTree src).text t.goEngine) := by
      unfold Go.document
      rw [hstanding]
    obtain ⟨o', hload', hmatches⟩ :=
      Loads.simulate hload hmeets.simulates .nil (.refl _) (t.alike src)
    rw [← hdoc, ← hchain] at hload'
    obtain ⟨a, ha, hall⟩ := Go.evals_of_loads (c := ⟨src, goMeta⟩) t.goTextual hload'
    obtain ⟨-, rfl⟩ := (hall G (.refl _) _ _).mp h'
    exact Twins.sameAnswer_of_matches hmatches ht hanswers ha

/-! ## One map -/

theorem stands_of_names {path : Option Str} {reference : Option Str} {key : Str}
    (h : ((Store.map ⟨files⟩).sources options).names reference path = some key) :
    StandsIn files (some key) := by
  rintro _ ⟨⟩
  obtain ⟨spec, src, search, hget, hr⟩ := SourceSet.of_names h
  refine ⟨?_, by rw [show files.get key = some src from hget]; rfl⟩
  have hhit : _ = firstLoaded files.get _ :=
    hit_resolve reference ⟨options, MultiSource.metaAt path⟩
  rw [show (MapResolver.mk files).resolve reference ⟨options, MultiSource.metaAt path⟩ = _
    from hr] at hhit
  obtain ⟨pre, post, hmem, -⟩ := firstLoaded_eq_some (hhit.symm : _ = some (key, src))
  rw [← goBuildPotentials_eq] at hmem
  apply Go.ne_nil_of_mem_buildPotentials
  rw [hmem]
  exact List.mem_append_right _ (List.mem_cons_self ..)

/-- A map in which the base path is no source, no source ends in a separator, and none that is
parsed is empty, is the same to every document. -/
theorem meets_map (hplain : PlainKeys files t.options.path)
    (hwritten : ∀ key, isParsed key = true → files.get key ≠ some []) (src : Str) :
    t.Meets ((Store.map ⟨files⟩).sources t.options) (.ofMap files (goOptions t.options)) src where
  names trail reference ht _ := by
    refine same_names hplain ?_ reference
    cases ht with
    | nil => exact fun key h => by cases h
    | snoc _ hr =>
      rw [last_concat]
      obtain ⟨_, -, hn⟩ := hr
      exact stands_of_names hn
  text _ _ := rfl
  written key _ := hwritten key

end Documents

theorem parseAlone_of_ne {c : Char} (hc : c ≠ '@') (rest : Str) :
    parseAlone (c :: rest) = .done (.ok (.string (c :: rest))) ∧
      Go.parseAlone (c :: rest) = .done (.ok (.string (c :: rest))) := by
  constructor
  · unfold parseAlone
    split
    · exact absurd (List.cons.inj ‹_›).1 hc
    · rfl
  · unfold Go.parseAlone
    split
    · exact absurd (List.cons.inj ‹_›).1 hc
    · rfl

theorem parseAlone_alike (src : Str) : Alike SameReference SameCode
    ((parseAlone src).text aloneEngine.float) ((Go.parseAlone src).text Go.aloneEngine) := by
  cases src with
  | nil => exact .value _
  | cons c reference =>
    by_cases hc : c = '@'
    · subst hc
      exact .refer rfl fun v => .value v
    · rw [(parseAlone_of_ne hc reference).1, (parseAlone_of_ne hc reference).2]
      exact .value _

/-- The small engines. -/
def aloneTwins : Twins Bool where
  options := .new
  engine := aloneEngine
  tree := parseAlone
  goEngine := Go.aloneEngine
  goTree := Go.parseAlone
  processor_eq := rfl
  textual _ _ _ := rfl
  goTextual _ _ := rfl
  alike := parseAlone_alike

/-- A source that is text. -/
abbrev leafFile : Entries Str := [("a.jsonic".toList, "x".toList)]

end MultiSource.Ports
