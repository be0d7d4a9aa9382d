import MultiSource.Links

/-!
# Roots on a filesystem with links

`realPath` takes every `..` off a path before it follows a link. So a root with a `..` behind a link
is taken for another place, and what may be read is what lies below that one.
-/

namespace MultiSource

open LinkTree Segments

namespace Os

variable {os : Os}

/-- What the climb answers: nothing, the path as it is, or names below a place that has no entry of
the first of them. -/
theorem deepest_cases (os : Os) (whole : OsPath) (hops : List (Hop Name)) (rest : List Name) :
    os.deepest whole hops.reverse rest = none ∨
      os.deepest whole hops.reverse rest = some whole.render ∨
      ∃ pre names loc, hops = pre ++ names.map Hop.name ∧
        os.canonicalize ⟨whole.absolute, pre⟩ = some loc ∧
        (∀ n ∈ names.head?, os.symlinkMetadata ⟨whole.absolute, pre ++ [.name n]⟩ = false) ∧
        os.deepest whole hops.reverse rest = some (located (loc ++ (names ++ rest))) := by
  induction hops using List.reverseRecOn generalizing rest with
  | nil =>
    unfold deepest
    dsimp only
    cases hc : os.canonicalize ⟨whole.absolute, List.reverse (List.reverse [])⟩ with
    | some loc => exact .inr (.inr ⟨[], [], loc, rfl, hc, by simp, rfl⟩)
    | none =>
      dsimp only
      split_ifs
      · exact .inl rfl
      · exact .inr (.inl rfl)
  | append_singleton init hop ih =>
    cases hc : os.canonicalize ⟨whole.absolute, init ++ [hop]⟩ with
    | some loc =>
      refine .inr (.inr ⟨init ++ [hop], [], loc, by simp, hc, by simp, ?_⟩)
      unfold deepest
      dsimp only
      rw [List.reverse_reverse, hc]
      rfl
    | none =>
      by_cases hs : os.symlinkMetadata ⟨whole.absolute, init ++ [hop]⟩ = true
      · left
        unfold deepest
        dsimp only
        rw [List.reverse_reverse, hc]
        exact if_pos hs
      cases hop with
      | name n =>
        have hstep : os.deepest whole (init ++ [Hop.name n]).reverse rest =
            os.deepest whole init.reverse (n :: rest) := by
          rw [List.reverse_concat, deepest, ← List.reverse_concat, List.reverse_reverse, hc]
          exact if_neg hs
        rw [hstep]
        refine (ih (n :: rest)).imp_right (.imp_right ?_)
        rintro ⟨pre, names, loc, rfl, hpre, hfirst, he⟩
        refine ⟨pre, names ++ [n], loc, by simp, hpre, ?_, by simpa using he⟩
        cases names with
        | nil =>
          intro m hm
          obtain rfl := Option.some.inj hm
          simpa using hs
        | cons m names => exact hfirst
      | _ =>
        right
        left
        rw [List.reverse_concat]
        unfold deepest
        dsimp only
        rw [← List.reverse_concat, List.reverse_reverse, hc]
        exact if_neg hs

theorem symlinkMetadata_snoc {absolute : Bool} {pre : List (Hop Name)} {loc : List Name}
    (h : os.canonicalize ⟨absolute, pre⟩ = some loc) (n : Name) :
    os.symlinkMetadata ⟨absolute, pre ++ [.name n]⟩ = (os.tree.at? (loc ++ [n])).isSome := by
  obtain ⟨cur, hcur, hr⟩ := Option.bind_eq_some_iff.mp h
  have hfrom : os.from? ⟨absolute, pre ++ [.name n]⟩ = some cur := by
    unfold from? at hcur ⊢
    cases absolute with
    | true => exact hcur
    | false =>
      simp only [Bool.false_eq_true, if_false] at hcur ⊢
      rw [if_neg (by simp)]
      split_ifs at hcur
      exact hcur
  unfold symlinkMetadata
  rw [hfrom]
  exact present_snoc hr n

/-- In the process's directory a relative path that leads anywhere has a `.`. -/
theorem canonicalize_here {root : Str} {rootLoc : List Name}
    (h : os.canonicalize (OsPath.system root) = some rootLoc)
    (ha : (os.absolute root).absolute = false) :
    os.canonicalize ⟨false, [.here]⟩ = some os.start := by
  have hrelative : root.head? ≠ some '/' := by
    intro hr
    obtain ⟨rest, rfl⟩ : ∃ rest, root = '/' :: rest := by
      cases root with
      | nil => cases hr
      | cons c rest =>
        obtain rfl := Option.some.inj hr
        exact ⟨rest, rfl⟩
    cases ha
  have hsystem : (OsPath.system root).absolute = false := decide_eq_false hrelative
  obtain ⟨cur, hcur, hr⟩ := Option.bind_eq_some_iff.mp h
  unfold from? at hcur
  rw [hsystem, if_neg Bool.false_ne_true] at hcur
  split_ifs at hcur with hne
  obtain rfl := Option.some.inj hcur
  obtain ⟨hop, hops, he⟩ := List.exists_cons_of_ne_nil hne
  rw [he] at hr
  obtain ⟨es, hd⟩ := dir_of_resolve hr
  exact resolve_here hd os.links

theorem reach_names {loc : List Name} (h : LinkFree os.tree loc) :
    os.reach (loc.map .name) = some loc := resolve_names os.links h

/-- No location is below the text of a path whose normal form leads nowhere. -/
theorem withinRoot_nowhere {root : Str} {rootLoc loc : List Name}
    (hroot : os.canonicalize (OsPath.system root) = some rootLoc)
    (hnone : os.canonicalize (os.absolute root).lexical = none) (hfree : LinkFree os.tree loc) :
    withinRoot (located loc) (os.absolute root).lexical.render true = false := by
  rcases (os.absolute root).lexical_cases with ⟨ha, he⟩ | ⟨hops, hs, hne, he⟩
  · rw [he, canonicalize_here hroot ha] at hnone
    cases hnone
  · rw [he] at hnone ⊢
    cases ha : (os.absolute root).absolute with
    | false =>
      rw [ha] at hne
      exact withinRoot_relative loc hs (hne.resolve_left Bool.false_ne_true)
    | true =>
      rw [ha, canonicalize_absolute] at hnone
      rw [Bool.eq_false_iff]
      intro h
      obtain ⟨names, ⟨more, rfl⟩, rfl⟩ := List.prefix_map_iff.mp ((withinRoot_render hs).mp h)
      rw [reach_names hfree.of_append] at hnone
      cases hnone

/-- Where the normal form of the root leads nowhere, nothing that is there is at or below the
root. -/
theorem withinRoot_realPath_nowhere {root : Str} {rootLoc loc : List Name}
    (hroot : os.canonicalize (OsPath.system root) = some rootLoc)
    (hnone : os.canonicalize (os.absolute root).lexical = none) (hfree : LinkFree os.tree loc) :
    withinRoot (located loc) ((os.realPath root).getD (os.canon root)) true = false := by
  have hreal : os.realPath root =
      os.deepest (os.absolute root).lexical (os.absolute root).lexical.hops.reverse [] := by
    unfold realPath
    dsimp only
    rw [hnone]
  have htext := withinRoot_nowhere hroot hnone hfree
  rw [hreal]
  rcases os.deepest_cases (os.absolute root).lexical (os.absolute root).lexical.hops [] with
    he | he | ⟨pre, names, place, hhops, hpre, hfirst, he⟩
  · rw [he]
    exact htext
  · rw [he]
    exact htext
  · rw [he, Option.getD_some, Bool.eq_false_iff, Ne, withinRoot_located]
    rintro ⟨more, rfl⟩
    cases names with
    | nil =>
      rw [List.map_nil, List.append_nil] at hhops
      rw [← hhops] at hpre
      cases hnone.symm.trans hpre
    | cons n names =>
      obtain ⟨x, hx, -⟩ := hfree
      have hmissing := hfirst n rfl
      rw [symlinkMetadata_snoc hpre, Option.isSome_eq_false_iff, Option.isNone_iff_eq_none]
        at hmissing
      have hsplit : place ++ (n :: names ++ []) ++ more = place ++ [n] ++ (names ++ more) := by
        simp
      rw [hsplit, Node.at?_append, hmissing] at hx
      cases hx

/-- The places that are there stand for themselves. -/
theorem lexical_located (os : Os) (loc : List Name) : os.Lexical (located loc) := by
  have hhead : (located loc).head? = some '/' := by
    rw [located_eq]
    rfl
  refine ⟨hhead, ?_⟩
  unfold canon absolute
  rw [if_pos hhead, norm_located]

theorem canonicalize_located {loc : List Name} (h : LinkFree os.tree loc) :
    os.canonicalize (OsPath.system (located loc)) = some loc :=
  (canonicalize_system (settled_located loc)).trans (reach_names h)

end Os

/-- If the root exists, an allowed candidate reads no file but one whose location is at or below the
root's. -/
def StaysBelow (os : Os) (root candidate : Str) : Prop :=
  ∀ rootLoc, os.canonicalize (OsPath.system root) = some rootLoc →
    (Confinement.new os.toFs (some root)).allows os.toFs candidate = true →
    ∀ text, os.read candidate = some text →
      ∃ loc, os.canonicalize (OsPath.system candidate) = some loc ∧
        os.tree.at? loc = some (.file text) ∧ rootLoc <+: loc

/-- Below the place that the root leads to once `lexical` has taken its `..`s off, if it is there,
lies no file but those below the place that the root itself leads to. -/
def CollapsesInside (os : Os) (root : Str) : Prop :=
  ∀ rootLoc collapsed, os.canonicalize (OsPath.system root) = some rootLoc →
    os.canonicalize (os.absolute root).lexical = some collapsed →
    ∀ loc text, os.tree.at? loc = some (.file text) → collapsed <+: loc → rootLoc <+: loc

/-- A root in normal form leads to one place with its `..`s and without: it has none. -/
theorem collapsesInside_of_lexical {os : Os} {root : Str} (h : os.Lexical root) :
    CollapsesInside os root := by
  obtain ⟨hops, hs, hl, hrender⟩ := h.hops
  intro rootLoc collapsed hroot hcollapsed loc text _ hpre
  rw [hrender, Os.canonicalize_system hs] at hroot
  rw [hl, Os.canonicalize_absolute, hroot] at hcollapsed
  exact Option.some.inj hcollapsed ▸ hpre

def named (text : Str) (h : text ≠ [] ∧ text ≠ ".".toList ∧ text ≠ "..".toList ∧ '/' ∉ text) :
    Name := ⟨text, h⟩

/-- A link in `/srv` to `/etc/d`, so that `/srv/link/../app` is `/etc/app`. Beside the link is
another `app`. -/
def linkedOs : Os where
  entries :=
    [(named "srv".toList (by decide), .dir
        [(named "link".toList (by decide),
            .link ⟨true, [.name (named "etc".toList (by decide)),
              .name (named "d".toList (by decide))], .inl rfl⟩),
          (named "app".toList (by decide), .dir
            [(named "x".toList (by decide), .file "x:1".toList)])]),
      (named "etc".toList (by decide), .dir
        [(named "d".toList (by decide), .dir []), (named "app".toList (by decide), .dir [])])]
  start := []
  cwd := none
  links := 40

end MultiSource
