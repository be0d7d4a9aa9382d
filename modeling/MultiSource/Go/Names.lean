import MultiSource.Go.Fs

/-!
# Names in an injected filesystem

What `fsClean` makes of a path is the root, or a path in normal form: steps up, then names, and no
more of them than there were. An extension, or a name below, leaves it in normal form.
-/

namespace MultiSource.Go

open Segments

/-! ## How many names -/

/-- How many names there are in a path. -/
def nameCount (path : Str) : ℕ := (path.splitOn '/').countP fun s => !OsPath.blank s

section Count

variable {path : Str} {segs : List Str}

theorem nameCount_cons_slash (path : Str) : nameCount ('/' :: path) = nameCount path := by
  unfold nameCount
  rw [show '/' :: path = [] ++ '/' :: path from rfl, List.splitOn_append_cons_self,
    List.splitOn_nil, List.countP_append, List.countP_singleton]
  exact Nat.zero_add _

theorem nameCount_joined_le (h : ∀ s ∈ segs, '/' ∉ s) :
    nameCount (joined '/' segs) ≤ segs.length := by
  unfold nameCount
  by_cases hs : segs = []
  · subst hs
    exact Nat.le_refl 0
  · rw [splitOn_joined h hs]
    exact List.countP_le_length

theorem nameCount_append_slash (path : Str) : nameCount (path ++ ['/']) = nameCount path := by
  unfold nameCount
  rw [show path ++ ['/'] = path ++ '/' :: [] from rfl, List.splitOn_append_cons_self,
    List.splitOn_nil, List.countP_append, List.countP_singleton]
  rfl

theorem collapse_slash {s : Str} (h : s ∈ collapse OsPath.blank isUp (path.splitOn '/')) :
    '/' ∉ s :=
  not_mem_of_mem_splitOn (mem_collapse h).1

theorem collapseUp_slash {s : Str} (h : s ∈ collapseUp OsPath.blank isUp (path.splitOn '/')) :
    '/' ∉ s :=
  not_mem_of_mem_splitOn (mem_collapseUp h).1

/-- `path.Clean` adds no names. -/
theorem nameCount_clean_le (path : Str) : nameCount (clean path) ≤ nameCount path := by
  unfold clean
  dsimp only
  split_ifs with hr hk
  · rw [nameCount_cons_slash]
    exact (nameCount_joined_le fun _ => collapse_slash).trans (length_collapse_le ..)
  · exact Nat.zero_le _
  · exact (nameCount_joined_le fun _ => collapseUp_slash).trans (length_collapseUp_le ..)

theorem trimSlash_joined (hslash : ∀ s ∈ segs, '/' ∉ s)
    (hblank : ∀ s ∈ segs, OsPath.blank s = false) (hne : segs ≠ []) :
    trimSlash (joined '/' segs) = joined '/' segs ∧ joined '/' segs ≠ [] := by
  obtain ⟨s, segs, rfl⟩ := List.exists_cons_of_ne_nil hne
  have hb := hblank s (List.mem_cons_self ..)
  have hs := hslash s (List.mem_cons_self ..)
  cases s with
  | nil => simp [OsPath.blank] at hb
  | cons c s =>
    have hc : c ≠ '/' := by
      rintro rfl
      exact hs (List.mem_cons_self ..)
    cases segs with
    | nil => exact ⟨if_neg hc, List.cons_ne_nil _ _⟩
    | cons t segs => exact ⟨if_neg hc, List.cons_ne_nil _ _⟩

end Count

/-! ## Normal form -/

/-- A name in a path. -/
def IsName (s : Str) : Prop := OsPath.blank s = false ∧ isUp s = false ∧ '/' ∉ s

/-- Steps up and then names, not nothing. -/
structure Normal (lead parts : List Str) (path : Str) : Prop where
  lead_up : ∀ u ∈ lead, u = "..".toList
  names : ∀ s ∈ parts, IsName s
  ne_nil : lead ++ parts ≠ []
  path_eq : path = joined '/' (lead ++ parts)

namespace Normal

variable {lead parts : List Str} {path : Str}

theorem slash (h : Normal lead parts path) : ∀ s ∈ lead ++ parts, '/' ∉ s := by
  intro s hs
  rcases List.mem_append.mp hs with hs | hs
  · rw [h.lead_up s hs]
    decide
  · exact (h.names s hs).2.2

theorem blank (h : Normal lead parts path) : ∀ s ∈ lead ++ parts, OsPath.blank s = false := by
  intro s hs
  rcases List.mem_append.mp hs with hs | hs
  · rw [h.lead_up s hs]
    decide
  · exact (h.names s hs).1

theorem splitOn_eq (h : Normal lead parts path) : path.splitOn '/' = lead ++ parts := by
  rw [h.path_eq, splitOn_joined h.slash h.ne_nil]

/-- Steps up, and then names, all stay. -/
theorem collapseUp_eq (hlead : ∀ u ∈ lead, u = "..".toList) (hparts : ∀ s ∈ parts, IsName s) :
    collapseUp OsPath.blank isUp (lead ++ parts) = lead ++ parts := by
  induction parts using List.reverseRecOn with
  | nil =>
    rw [List.append_nil]
    induction lead using List.reverseRecOn with
    | nil => rfl
    | append_singleton lead u ih =>
      rw [collapseUp_concat, ih fun u hu => hlead u (List.mem_append_left _ hu)]
      obtain rfl := hlead u (by simp)
      have hall : lead.getLast?.all isUp = true := by
        cases hl : lead.getLast? with
        | none => rfl
        | some u =>
          rw [hlead u (List.mem_append_left _ (List.mem_of_getLast? hl))]
          rfl
      unfold pushUp
      rw [if_neg (by decide), if_pos (by decide), if_pos hall]
  | append_singleton parts s ih =>
    obtain ⟨hb, hu, -⟩ := hparts s (by simp)
    rw [← List.append_assoc, collapseUp_concat,
      ih fun s hs => hparts s (List.mem_append_left _ hs)]
    unfold pushUp
    rw [if_neg (by simp [hb]), if_neg (by simp [hu])]

theorem head?_ne (h : Normal lead parts path) : path.head? ≠ some '/' := by
  obtain ⟨s, segs, hs⟩ := List.exists_cons_of_ne_nil h.ne_nil
  have hb := h.blank s (by simp [hs])
  have hslash := h.slash s (by simp [hs])
  rw [h.path_eq, hs]
  cases s with
  | nil => simp [OsPath.blank] at hb
  | cons c s =>
    have hc : c ≠ '/' := by
      rintro rfl
      exact hslash (List.mem_cons_self ..)
    cases segs <;> simpa [joined] using hc

/-- A path in normal form is its own name. -/
theorem fsClean_eq (h : Normal lead parts path) : fsClean path = path := by
  have hclean : clean path = path := by
    unfold clean
    dsimp only
    rw [if_neg h.head?_ne, h.splitOn_eq, collapseUp_eq h.lead_up h.names, if_neg h.ne_nil,
      ← h.path_eq]
  have htrim := trimSlash_joined h.slash h.blank h.ne_nil
  unfold fsClean
  rw [hclean, h.path_eq, htrim.1, if_neg htrim.2]

/-- A name below it. -/
theorem child (h : Normal lead parts path) {s : Str} (hs : IsName s) :
    Normal lead (parts ++ [s]) (path ++ '/' :: s) where
  lead_up := h.lead_up
  names t ht := by
    rcases List.mem_append.mp ht with ht | ht
    · exact h.names t ht
    · rw [List.mem_singleton.mp ht]
      exact hs
  ne_nil := by simp
  path_eq := by
    rw [← List.append_assoc, joined_append h.ne_nil (List.cons_ne_nil _ _), joined_singleton,
      ← h.path_eq]

end Normal

theorem isName_append {s e : Str} (hs : OsPath.blank s = false) (hslash : '/' ∉ s) (he : '/' ∉ e)
    (hup : isUp s = false ∨ e ≠ []) : IsName (s ++ e) := by
  have hdot : ".".toList = ['.'] := rfl
  have hup' : "..".toList = ['.', '.'] := rfl
  have hne : s ≠ [] ∧ s ≠ ['.'] := by simpa [OsPath.blank] using hs
  obtain ⟨c, s, rfl⟩ := List.exists_cons_of_ne_nil hne.1
  refine ⟨?_, ?_, fun h => (List.mem_append.mp h).elim hslash he⟩
  · have h : c :: (s ++ e) ≠ ".".toList := by
      rw [hdot]
      intro h
      obtain ⟨rfl, hrest⟩ := List.cons.inj h
      obtain ⟨rfl, -⟩ := List.append_eq_nil_iff.mp hrest
      exact hne.2 rfl
    simpa [OsPath.blank] using h
  · have h : c :: (s ++ e) ≠ "..".toList := by
      rw [hup']
      intro h
      obtain ⟨rfl, hrest⟩ := List.cons.inj h
      rcases List.append_eq_singleton_iff.mp hrest with ⟨rfl, -⟩ | ⟨rfl, rfl⟩
      · exact hne.2 rfl
      · rcases hup with hup | hup
        · exact absurd hup (by decide)
        · exact hup rfl
    simpa [isUp] using h

theorem normal_concat_ext {lead init : List Str} {s path e : Str}
    (hlead : ∀ u ∈ lead, u = "..".toList) (hinit : ∀ s ∈ init, IsName s)
    (hb : OsPath.blank s = false) (hs : '/' ∉ s) (he : '/' ∉ e) (hne : e ≠ [])
    (hp : path = joined '/' (lead ++ init ++ [s])) :
    Normal lead (init ++ [s ++ e]) (path ++ e) where
  lead_up := hlead
  names t ht := by
    rcases List.mem_append.mp ht with ht | ht
    · exact hinit t ht
    · rw [List.mem_singleton.mp ht]
      exact isName_append hb hs he (.inr hne)
  ne_nil := by simp
  path_eq := by rw [hp, ← List.append_assoc, joined_concat_append]

/-- With an extension it stays in normal form. -/
theorem Normal.ext {lead parts : List Str} {path e : Str} (h : Normal lead parts path)
    (he : '/' ∉ e) : ∃ lead parts, Normal lead parts (path ++ e) := by
  by_cases hnil : e = []
  · subst hnil
    exact ⟨lead, parts, by rwa [List.append_nil]⟩
  by_cases hp : parts = []
  · subst hp
    obtain ⟨init, u, rfl⟩ : ∃ init u, lead = init ++ [u] := by
      have hne := h.ne_nil
      rw [List.append_nil] at hne
      exact ⟨_, _, (List.dropLast_append_getLast hne).symm⟩
    have hpath : path = joined '/' (init ++ [] ++ [u]) := by simpa using h.path_eq
    exact ⟨_, _, normal_concat_ext (fun u hu => h.lead_up u (List.mem_append_left _ hu))
      (List.forall_mem_nil _) (h.blank u (by simp)) (h.slash u (by simp)) he hnil hpath⟩
  · obtain ⟨init, s, rfl⟩ : ∃ init s, parts = init ++ [s] :=
      ⟨_, _, (List.dropLast_append_getLast hp).symm⟩
    have hpath : path = joined '/' (lead ++ init ++ [s]) := by
      rw [List.append_assoc]
      exact h.path_eq
    exact ⟨_, _, normal_concat_ext h.lead_up (fun s hs => h.names s (List.mem_append_left _ hs))
      (h.blank s (by simp)) (h.slash s (by simp)) he hnil hpath⟩

theorem fsClean_of_segs {path : Str} {lead parts : List Str} (hlead : ∀ u ∈ lead, u = "..".toList)
    (hparts : ∀ s ∈ parts, IsName s) (h : trimSlash (clean path) = joined '/' (lead ++ parts)) :
    fsClean path = ".".toList ∨ Normal lead parts (fsClean path) := by
  by_cases hne : lead ++ parts = []
  · left
    unfold fsClean
    rw [h, hne]
    rfl
  · right
    have hnormal : Normal lead parts (joined '/' (lead ++ parts)) := ⟨hlead, hparts, hne, rfl⟩
    unfold fsClean
    rw [h, if_neg (trimSlash_joined hnormal.slash hnormal.blank hne).2]
    exact hnormal

/-- What `fsClean` gives is the root, or in normal form, with no more names than there were. -/
theorem fsClean_normal (path : Str) : fsClean path = ".".toList ∨
    ∃ lead parts, Normal lead parts (fsClean path) ∧ (lead ++ parts).length ≤ nameCount path := by
  have hname {s : Str} (h : s ∈ collapse OsPath.blank isUp (path.splitOn '/')) : IsName s :=
    ⟨(mem_collapse h).2.1, (mem_collapse h).2.2, not_mem_of_mem_splitOn (mem_collapse h).1⟩
  by_cases hr : path.head? = some '/'
  · have hclean : trimSlash (clean path) =
        joined '/' ([] ++ collapse OsPath.blank isUp (path.splitOn '/')) := by
      unfold clean
      rw [if_pos hr]
      rfl
    exact (fsClean_of_segs (List.forall_mem_nil _) (fun s => hname) hclean).imp_right
      fun h => ⟨_, _, h, length_collapse_le ..⟩
  · by_cases hk : collapseUp OsPath.blank isUp (path.splitOn '/') = []
    · left
      unfold fsClean clean
      dsimp only
      rw [if_neg hr, if_pos hk]
      rfl
    · obtain ⟨lead, hlead, heq, -⟩ := collapseUp_spec OsPath.blank isUp (path.splitOn '/')
      have hclean : trimSlash (clean path) =
          joined '/' (lead ++ collapse OsPath.blank isUp (path.splitOn '/')) := by
        unfold clean
        dsimp only
        rw [if_neg hr, if_neg hk, ← heq]
        exact (trimSlash_joined (fun _ => collapseUp_slash) (fun _ h => (mem_collapseUp h).2) hk).1
      exact (fsClean_of_segs (fun u hu => of_decide_eq_true (hlead u hu)) (fun s => hname)
        hclean).imp_right fun h => ⟨_, _, h, heq ▸ length_collapseUp_le ..⟩

/-! ## Steps up -/

/-- `path.Dir`. -/
def pathDir (path : Str) : Str :=
  match rsplit (· = '/') path with
  | some (dir, _) => clean (dir ++ ['/'])
  | none => clean []

/-- A step up from a path is the root, or has fewer names. -/
theorem pathDir_fsClean (path : Str) : pathDir (fsClean path) = ".".toList ∨
    nameCount (pathDir (fsClean path)) < nameCount path := by
  rcases fsClean_normal path with h | ⟨lead, parts, h, hlen⟩
  · rw [h]
    exact .inl rfl
  · obtain ⟨init, s, he⟩ : ∃ init s, lead ++ parts = init ++ [s] :=
      ⟨_, _, (List.dropLast_append_getLast h.ne_nil).symm⟩
    have hslash := h.slash
    have hpath := h.path_eq
    rw [he] at hlen hslash hpath
    have hs : ∀ c ∈ s, decide (c = '/') = false := by
      intro c hc
      rw [decide_eq_false_iff_not]
      rintro rfl
      exact hslash s (by simp) hc
    rw [hpath]
    by_cases hinit : init = []
    · subst hinit
      left
      rw [List.nil_append, joined_singleton]
      unfold pathDir
      rw [rsplit_eq_none.mpr hs]
      rfl
    · right
      have hsplit : rsplit (· = '/') (joined '/' (init ++ [s])) = some (joined '/' init, s) := by
        rw [joined_append hinit (List.cons_ne_nil _ _), joined_singleton]
        exact rsplit_append_cons (by simp) hs
      unfold pathDir
      rw [hsplit]
      dsimp only
      rw [List.length_append, List.length_singleton] at hlen
      have hcount := nameCount_clean_le (joined '/' init ++ ['/'])
      rw [nameCount_append_slash] at hcount
      have := nameCount_joined_le fun s hs => hslash s (List.mem_append_left _ hs)
      omega

end MultiSource.Go
