import Mathlib.Data.List.Chain
import Mathlib.Data.List.Nodup
import MultiSource.Lib.Inclusion
import MultiSource.References

/-!
# The graph of references

A source refers to another if a reference inside it resolves to that. What comes after a reference
may depend on its value, so a reference is inside a source if it is met when every reference before
it that has a value gave that value.
-/

namespace MultiSource

variable (S : SourceSet) (float : ExpFormat) (tree : Str → Parse) (doc : Str)

/-- The parse of a source, or of the document. A source of a kind that is not parsed has no
references. -/
def treeAt : Option Str → Parse
  | none => tree doc
  | some full =>
    match S.text full, isParsed full with
    | some src, true => tree src
    | _, _ => .done (.ok .undefined)

/-- The reference at a site is inside the source at `path`, of which a parse is left. -/
inductive Inside (path : Option Str) : Parse → Site → Prop
  | here {site : Site} {next : Effect → Parse} : Inside path (.act site next) site
  | later {site site' : Site} {next : Effect → Parse} {effect : Effect} :
      (∀ v, Means S float tree path (.reference site) v → effect = site.effect v) →
      Inside path (next effect) site' → Inside path (.act site next) site'

/-- A reference inside `a`, or inside the document, resolves to `b`. -/
def Refers (a : Option Str) (b : Str) : Prop :=
  ∃ site, Inside S float tree a (treeAt S tree doc a) site ∧
    S.names (referenceOf float site.body) a = some b

/-- The sources a chain of references from the document passes through. -/
abbrev Trail : List Str → Prop := Inclusion.Walk (Refers S float tree doc)

/-- One source refers to another. -/
def RefersTo (a b : Str) : Prop := Refers S float tree doc (some a) b

/-- A chain of references from the document ends at `a`, or is empty and that is the document. -/
def Reached (a : Option Str) : Prop := ∃ c, Trail S float tree doc c ∧ c.getLast? = a

variable {S float tree doc}

theorem treeAt_of_parsed {full src : Str} (ht : S.text full = some src)
    (hp : isParsed full = true) : treeAt S tree doc (some full) = tree src := by
  rw [treeAt, ht, hp]

theorem RefersTo.parsed {a b : Str} (h : RefersTo S float tree doc a b) :
    isParsed a = true ∧ ∃ src, S.text a = some src ∧ treeAt S tree doc (some a) = tree src := by
  obtain ⟨site, hi, -⟩ := h
  cases ht : S.text a with
  | none =>
    simp only [treeAt, ht] at hi
    cases hi
  | some src =>
    cases hp : isParsed a with
    | false =>
      simp only [treeAt, ht, hp] at hi
      cases hi
    | true => exact ⟨rfl, src, rfl, treeAt_of_parsed ht hp⟩

theorem Reached.step {a : Option Str} {b : Str} (ha : Reached S float tree doc a)
    (hr : Refers S float tree doc a b) : Reached S float tree doc (some b) := by
  obtain ⟨c, hc, rfl⟩ := ha
  exact ⟨c ++ [b], .snoc hc hr, List.getLast?_concat⟩

theorem Inside.next {path : Option Str} {site site' : Site} {next : Effect → Parse} {v : Value}
    (hv : Means S float tree path (.reference site) v)
    (h : Inside S float tree path (next (site.effect v)) site') :
    Inside S float tree path (.act site next) site' :=
  .later (fun w hw => by rw [hv.unique hw]) h

/-- The sources refer each to the next and the last to the first, and none is there twice. -/
structure Loop (S : SourceSet) (float : ExpFormat) (tree : Str → Parse) (doc : Str) (a : Str)
    (rest : List Str) : Prop where
  nodup : (a :: rest).Nodup
  refers : (a :: rest ++ [a]).IsChain (RefersTo S float tree doc)

theorem Loop.transGen {a : Str} {rest : List Str} (h : Loop S float tree doc a rest) :
    Relation.TransGen (RefersTo S float tree doc) a a := by
  obtain ⟨b, l, hl⟩ := List.exists_cons_of_ne_nil (List.append_ne_nil_of_right_ne_nil rest
    (List.cons_ne_nil a []))
  have hchain := h.refers
  rw [List.cons_append, hl, List.isChain_cons_cons] at hchain
  refine .head' hchain.1 (List.relationReflTransGen_of_exists_isChain_cons l hchain.2 ?_)
  simp only [← hl, List.getLast_concat]

/-! ## Where a report is raised -/

/-- The reference at `site`, below `c`, fails: it resolves to nothing, or the chain is against it,
or it does so with none of the plugin's own codes. -/
inductive Refuted (S : SourceSet) (float : ExpFormat) (maxDepth : ℕ) (c : List Str) (site : Site) :
    Report → Prop
  | missing {report : Report} : S.names (referenceOf float site.body) c.getLast? = none →
      report.1 = NOT_FOUND → Refuted S float maxDepth c site report
  | refused {full : Str} {report : Report} :
      S.names (referenceOf float site.body) c.getLast? = some full →
      chainReport maxDepth c full = some report → Refuted S float maxDepth c site report
  | error {report : Report} :
      report.1 ≠ NOT_FOUND → report.1 ≠ CYCLE → report.1 ≠ DEPTH →
      Refuted S float maxDepth c site report

theorem codeOf_own (e : OwnError) :
    codeOf e.error ≠ NOT_FOUND ∧ codeOf e.error ≠ CYCLE ∧ codeOf e.error ≠ DEPTH := by
  unfold codeOf
  split_ifs
  · decide
  · exact e.own

theorem Refuted.own (S : SourceSet) (float : ExpFormat) (maxDepth : ℕ) (c : List Str) (site : Site)
    (full : Str) (e : OwnError) : Refuted S float maxDepth c site (errorReport full e.error) :=
  .error (codeOf_own e).1 (codeOf_own e).2.1 (codeOf_own e).2.2

/-- The references of a task are inside the source at the end of `c`. -/
def Stands (S : SourceSet) (float : ExpFormat) (tree : Str → Parse) (doc : Str) (c : List Str) :
    Task → Prop
  | .source rest => ∀ site, Inside S float tree c.getLast? rest site →
      Inside S float tree c.getLast? (treeAt S tree doc c.getLast?) site
  | .reference site => Inside S float tree c.getLast? (treeAt S tree doc c.getLast?) site

theorem Trail.nest {c : List Str} {full : Str} {site : Site} {maxDepth : ℕ}
    (hc : Trail S float tree doc c) (hnodup : c.Nodup)
    (hs : Inside S float tree c.getLast? (treeAt S tree doc c.getLast?) site)
    (hn : S.names (referenceOf float site.body) c.getLast? = some full)
    (hcheck : chainReport maxDepth c full = none) :
    Trail S float tree doc (c ++ [full]) ∧ (c ++ [full]).Nodup := by
  refine ⟨.snoc hc ⟨site, hs, hn⟩, List.nodup_append.mpr ⟨hnodup, List.nodup_singleton _, ?_⟩⟩
  rintro a ha b hb rfl
  rw [List.mem_singleton.mp hb] at ha
  exact (chainReport_eq_none hcheck).1 ha

theorem Comes.refuted {maxDepth : ℕ} {refused : Str → Prop} {path : Option Str} {chain : List Str}
    {task : Task} {o : Outcome} (h : Comes S float tree maxDepth refused path chain task o) :
    ∀ report, o = .raised report → path = chain.getLast? → Trail S float tree doc chain →
      chain.Nodup → Stands S float tree doc chain task →
      ∃ c site, Trail S float tree doc c ∧ c.Nodup ∧
        Inside S float tree c.getLast? (treeAt S tree doc c.getLast?) site ∧
        Refuted S float maxDepth c site report := by
  induction h with
  | value => exact fun _ h => absurd h (by simp)
  | own => exact fun _ h => absurd h (by simp)
  | next hv _ _ ih =>
    rintro report ho rfl hc hnodup hs
    exact ih report ho rfl hc hnodup fun site' hi => hs site' (hi.next (hv.means _ rfl))
  | stop _ ih =>
    rintro report ho rfl hc hnodup hs
    exact ih report ho rfl hc hnodup (hs _ .here)
  | missing hn =>
    rintro _ ⟨⟩ rfl hc hnodup hs
    exact ⟨_, _, hc, hnodup, hs, .missing hn rfl⟩
  | refused hn hcheck =>
    rintro _ ⟨⟩ rfl hc hnodup hs
    exact ⟨_, _, hc, hnodup, hs, .refused hn hcheck⟩
  | text => exact fun _ h => absurd h (by simp)
  | noThread =>
    rintro _ ⟨⟩ rfl hc hnodup hs
    exact ⟨_, _, hc, hnodup, hs, .own ..⟩
  | @nested _ chain site full src o o' hn hcheck ht hp _ ho ih =>
    rintro report rfl rfl hc hnodup hs
    cases o' with
    | value v => exact absurd ho (by simp [carry])
    | own e =>
      obtain rfl := Outcome.raised.inj ho
      exact ⟨_, _, hc, hnodup, hs, .own ..⟩
    | raised report' =>
      obtain rfl := Outcome.raised.inj ho
      obtain ⟨hc', hnodup'⟩ := hc.nest hnodup hs hn hcheck
      refine ih report rfl List.getLast?_concat.symm hc' hnodup' fun site' hi => ?_
      rw [List.getLast?_concat, treeAt_of_parsed ht hp]
      rwa [List.getLast?_concat] at hi

/-! ## What a value says -/

section Values

variable {maxDepth : ℕ} {refused : Str → Prop} {path : Option Str} {chain : List Str}

/-- The source at `path`, or the document, comes to a value below `chain`. -/
def Valued (S : SourceSet) (float : ExpFormat) (tree : Str → Parse) (doc : Str) (maxDepth : ℕ)
    (refused : Str → Prop) (path : Option Str) (chain : List Str) : Prop :=
  ∃ v, Comes S float tree maxDepth refused path chain (.source (treeAt S tree doc path)) (.value v)

theorem Comes.inside {rest : Parse} {site : Site} {v : Value}
    (h : Comes S float tree maxDepth refused path chain (.source rest) (.value v))
    (hi : Inside S float tree path rest site) :
    ∃ w, Comes S float tree maxDepth refused path chain (.reference site) (.value w) := by
  induction hi with
  | here =>
    cases h with
    | next hv _ => exact ⟨_, hv⟩
  | later he _ ih =>
    cases h with
    | next hv hrest =>
      obtain rfl := he _ (hv.means _ rfl)
      exact ih hrest

/-- Where there is a value, every source referred to is none of those above, and has a value. -/
theorem Valued.step {b : Str} (h : Valued S float tree doc maxDepth refused path chain)
    (hr : Refers S float tree doc path b) :
    b ∉ chain ∧ Valued S float tree doc maxDepth refused (some b) (chain ++ [b]) := by
  obtain ⟨v, h⟩ := h
  obtain ⟨site, hi, hn⟩ := hr
  obtain ⟨w, h⟩ := h.inside hi
  cases h with
  | text hn' hcheck ht hp =>
    obtain rfl := Option.some.inj (hn.symm.trans hn')
    refine ⟨(chainReport_eq_none hcheck).1, .undefined, ?_⟩
    rw [treeAt, ht, hp]
    exact .value
  | nested hn' hcheck ht hp hnested ho =>
    obtain rfl := Option.some.inj (hn.symm.trans hn')
    obtain rfl := carry_eq_value ho
    exact ⟨(chainReport_eq_none hcheck).1, w, by rwa [treeAt_of_parsed ht hp]⟩

theorem Valued.trail {c : List Str} (h : Valued S float tree doc maxDepth refused none [])
    (hc : Trail S float tree doc c) :
    Valued S float tree doc maxDepth refused c.getLast? c := by
  induction hc with
  | nil => exact h
  | snoc _ hr ih =>
    rw [List.getLast?_concat]
    exact (ih.step hr).2

/-- Down a chain of references the list of those above only grows. -/
theorem Valued.descend {a b : Str} (h : Valued S float tree doc maxDepth refused (some a) chain)
    (hab : Relation.ReflTransGen (RefersTo S float tree doc) a b) :
    ∃ chain', chain ⊆ chain' ∧ Valued S float tree doc maxDepth refused (some b) chain' := by
  induction hab with
  | refl => exact ⟨chain, List.Subset.refl _, h⟩
  | tail _ hr ih =>
    obtain ⟨chain', hsub, h'⟩ := ih
    exact ⟨_, List.subset_append_of_subset_left _ hsub, (h'.step hr).2⟩

/-- A document with a value reaches no source that reaches itself. -/
theorem Valued.acyclic {a : Str} (h : Valued S float tree doc maxDepth refused none [])
    (ha : Reached S float tree doc (some a)) :
    ¬ Relation.TransGen (RefersTo S float tree doc) a a := by
  intro hloop
  obtain ⟨c, hc, hlast⟩ := ha
  obtain ⟨x, hax, hxa⟩ := Relation.TransGen.tail'_iff.mp hloop
  obtain ⟨chain, hsub, hx⟩ := Valued.descend (hlast ▸ h.trail hc) hax
  exact (hx.step hxa).1 (hsub (List.mem_of_getLast? hlast))

end Values

end MultiSource
