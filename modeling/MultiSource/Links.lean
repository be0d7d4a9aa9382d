import MultiSource.Resolver

/-!
# Confinement on a filesystem with links

`realPath` follows every link of a path that is there. Where the path is not there it climbs to the
deepest prefix that is, and refuses when the next name is a link that leads nowhere. Locations are
compared component by component.
-/

namespace MultiSource

open LinkTree Segments

/-! ## Texts of normal paths -/

theorem hopOf_name (n : Name) : OsPath.hopOf (OsPath.hopText (.name n)) = some (.name n) :=
  dif_pos n.isName

theorem sep_not_mem_hopText (h : Hop Name) : '/' ∉ OsPath.hopText h := by
  cases h with
  | here => decide
  | up => decide
  | name n => exact n.isName.2.2.2

/-- The components of an absolute path in normal form: names, and a `..` before them where the path
climbs above the root. -/
def Settled (hops : List (Hop Name)) : Prop :=
  ∃ names : List Name, hops = names.map .name ∨ hops = .up :: names.map .name

theorem settled_nil : Settled [] := ⟨[], .inl rfl⟩

theorem settled_snoc {hops : List (Hop Name)} (h : Settled hops) (n : Name) :
    Settled (hops ++ [.name n]) := by
  obtain ⟨names, rfl | rfl⟩ := h
  · exact ⟨names ++ [n], .inl (by simp)⟩
  · exact ⟨names ++ [n], .inr (by simp)⟩

/-- A normal path that is not empty ends in a name, unless it is the lone `..`. -/
theorem Settled.cases {hops : List (Hop Name)} (h : Settled hops) :
    hops = [] ∨ hops = [.up] ∨ ∃ init n, Settled init ∧ hops = init ++ [.name n] := by
  obtain ⟨names, h⟩ := h
  rcases List.eq_nil_or_concat names with rfl | ⟨init, n, rfl⟩
  · exact h.imp id .inl
  · refine .inr (.inr ?_)
    rcases h with rfl | rfl
    · exact ⟨init.map .name, n, ⟨init, .inl rfl⟩, by simp⟩
    · exact ⟨.up :: init.map .name, n, ⟨init, .inr rfl⟩, by simp⟩

theorem settled_of_snoc {init : List (Hop Name)} {hop : Hop Name} (h : Settled (init ++ [hop])) :
    init = [] ∧ hop = .up ∨ ∃ n, hop = .name n ∧ Settled init := by
  rcases h.cases with he | he | ⟨init', n, hi, he⟩
  · exact absurd he (by simp)
  · rw [show [Hop.up] = ([] : List (Hop Name)) ++ [.up] from rfl] at he
    obtain ⟨hi, hh⟩ := List.append_inj' he rfl
    exact .inl ⟨hi, by simpa using hh⟩
  · obtain ⟨rfl, he⟩ := List.append_inj' he rfl
    exact .inr ⟨n, by simpa using he, hi⟩

namespace OsPath

theorem foldl_lexicalStep (absolute : Bool) (hops : List (Hop Name)) {s : List (Hop Name)}
    (hs : Settled s) :
    ∃ s', Settled s' ∧ hops.foldl lexicalStep ⟨absolute, s⟩ = ⟨absolute, s'⟩ := by
  induction hops generalizing s with
  | nil => exact ⟨s, hs, rfl⟩
  | cons hop hops ih =>
    cases hop with
    | here => exact ih hs
    | name n => exact ih (settled_snoc hs n)
    | up =>
      rcases hs.cases with rfl | rfl | ⟨init, n, hi, rfl⟩
      · exact ih ⟨[], .inr rfl⟩
      · exact ih settled_nil
      · have hc : lexicalStep ⟨absolute, init ++ [.name n]⟩ .up = ⟨absolute, init⟩ := by
          simp [lexicalStep, climb]
        rw [List.foldl_cons, hc]
        exact ih hi

theorem foldl_names (absolute : Bool) (names : List Name) (s : List (Hop Name)) :
    (names.map Hop.name).foldl lexicalStep ⟨absolute, s⟩ =
      ⟨absolute, s ++ names.map .name⟩ := by
  induction names generalizing s with
  | nil => simp
  | cons n names ih =>
    rw [List.map_cons, List.foldl_cons]
    show (names.map Hop.name).foldl lexicalStep ⟨absolute, s ++ [.name n]⟩ = _
    rw [ih, List.append_assoc, List.singleton_append]

/-- The normal form of a path: settled components, and a lone `.` for a relative path without
any. -/
theorem lexical_cases (path : OsPath) : path.absolute = false ∧ path.lexical = ⟨false, [.here]⟩ ∨
    ∃ s, Settled s ∧ (path.absolute = true ∨ s ≠ []) ∧ path.lexical = ⟨path.absolute, s⟩ := by
  obtain ⟨absolute, hops⟩ := path
  obtain ⟨s, hs, he⟩ := foldl_lexicalStep absolute hops settled_nil
  unfold lexical
  dsimp only
  rw [he]
  dsimp only
  cases absolute with
  | true => exact .inr ⟨s, hs, .inl rfl, if_neg (by simp)⟩
  | false =>
    by_cases hne : s = []
    · exact .inl ⟨rfl, if_pos ⟨rfl, hne⟩⟩
    · exact .inr ⟨s, hs, .inr hne, if_neg fun h => hne h.2⟩

theorem lexical_absolute (hops : List (Hop Name)) :
    ∃ s, Settled s ∧ lexical ⟨true, hops⟩ = ⟨true, s⟩ := by
  rcases lexical_cases ⟨true, hops⟩ with ⟨h, -⟩ | ⟨s, hs, -, he⟩
  · cases h
  · exact ⟨s, hs, he⟩

theorem lexical_settled {absolute : Bool} {s : List (Hop Name)} (hs : Settled s)
    (hne : absolute = true ∨ s ≠ []) : lexical ⟨absolute, s⟩ = ⟨absolute, s⟩ := by
  have he : s.foldl lexicalStep ⟨absolute, []⟩ = ⟨absolute, s⟩ := by
    obtain ⟨names, rfl | rfl⟩ := hs
    · rw [foldl_names, List.nil_append]
    · show (names.map Hop.name).foldl lexicalStep ⟨absolute, [.up]⟩ = _
      rw [foldl_names, List.singleton_append]
  unfold lexical
  dsimp only
  rw [he]
  refine if_neg fun h => ?_
  rcases hne with ha | hne
  · cases ha.symm.trans h.1
  · exact hne h.2

theorem hopOf_hopText {s : List (Hop Name)} (hs : Settled s) :
    (s.map hopText).filterMap hopOf = s := by
  have hn : ∀ names : List Name, ((names.map Hop.name).map hopText).filterMap hopOf =
      names.map .name := by
    intro names
    induction names with
    | nil => rfl
    | cons n names ih =>
      rw [List.map_cons, List.map_cons, List.filterMap_cons_some (hopOf_name n), ih]
  obtain ⟨names, rfl | rfl⟩ := hs
  · exact hn names
  · rw [List.map_cons, List.filterMap_cons_some (by decide : hopOf (hopText .up) = some .up), hn]

theorem filterMap_splitOn {s : List (Hop Name)} (hs : Settled s) :
    ((joined '/' (s.map hopText)).splitOn '/').filterMap hopOf = s := by
  by_cases hne : s = []
  · subst hne
    decide
  · rw [splitOn_joined (fun l hl => ?_) (by simpa using hne), hopOf_hopText hs]
    obtain ⟨h, -, rfl⟩ := List.mem_map.mp hl
    exact sep_not_mem_hopText h

theorem render_absolute (hops : List (Hop Name)) :
    render ⟨true, hops⟩ = '/' :: joined '/' (hops.map hopText) := rfl

theorem parse_render {s : List (Hop Name)} (hs : Settled s) :
    parse (render ⟨true, s⟩) = ⟨true, s⟩ := by
  rw [render_absolute]
  show (⟨true, _⟩ : OsPath) = _
  congr 1
  exact filterMap_splitOn hs

/-- A path whose first segment is none to drop has no root and no leading `.`. -/
theorem splitHead_of_splitOn {path l : Str} {ls : List Str} (h : path.splitOn '/' = l :: ls)
    (hl : blank l = false) : splitHead path = ([], path) := by
  unfold splitHead
  split
  · rename_i rest
    rw [show '/' :: rest = [] ++ '/' :: rest from rfl, List.splitOn_append_cons_self] at h
    obtain rfl := (List.cons.inj h).1
    cases hl
  · obtain rfl := (List.cons.inj h).1
    cases hl
  · rename_i rest
    rw [show '.' :: '/' :: rest = ".".toList ++ '/' :: rest from rfl,
      List.splitOn_append_cons_self] at h
    obtain rfl := (List.cons.inj h).1
    cases hl
  · rfl

theorem parse_render_relative {s : List (Hop Name)} (hs : Settled s) (hne : s ≠ []) :
    parse (render ⟨false, s⟩) = ⟨false, s⟩ := by
  have hsplit : (joined '/' (s.map hopText)).splitOn '/' = s.map hopText := by
    rw [splitOn_joined (fun l hl => ?_) (by simpa using hne)]
    obtain ⟨h, -, rfl⟩ := List.mem_map.mp hl
    exact sep_not_mem_hopText h
  have hhead : splitHead (joined '/' (s.map hopText)) = ([], joined '/' (s.map hopText)) := by
    obtain ⟨names, h⟩ := hs
    obtain ⟨hop, hops, rfl⟩ := List.exists_cons_of_ne_nil hne
    refine splitHead_of_splitOn hsplit ?_
    rcases h with h | h
    · obtain ⟨n, names, rfl⟩ : ∃ n names', names = n :: names' := by
        cases names with
        | nil => cases h
        | cons n names => exact ⟨n, names, rfl⟩
      obtain rfl := (List.cons.inj h).1
      exact decide_eq_false (not_or.mpr ⟨n.isName.1, n.isName.2.1⟩)
    · obtain rfl := (List.cons.inj h).1
      rfl
  rw [show render ⟨false, s⟩ = joined '/' (s.map hopText) from rfl]
  unfold parse
  rw [hhead]
  dsimp only
  rw [hsplit, hopOf_hopText hs]
  rfl

theorem hopText_injective : Function.Injective hopText := by
  have hdot (n : Name) : hopText (.name n) ≠ hopText .here := n.isName.2.1
  have hdots (n : Name) : hopText (.name n) ≠ hopText .up := n.isName.2.2.1
  intro hop hop' h
  cases hop with
  | here =>
    cases hop' with
    | here => rfl
    | up => exact absurd h (by decide)
    | name n => exact absurd h.symm (hdot n)
  | up =>
    cases hop' with
    | here => exact absurd h (by decide)
    | up => rfl
    | name n => exact absurd h.symm (hdots n)
  | name n =>
    cases hop' with
    | here => exact absurd h (hdot n)
    | up => exact absurd h (hdots n)
    | name m => exact congrArg Hop.name (Name.ext h)

theorem hopText_ne_nil (h : Hop Name) : hopText h ≠ [] := by
  cases h with
  | here => decide
  | up => decide
  | name n => exact n.isName.1

theorem hopText_ne_dot {s : List (Hop Name)} (hs : Settled s) :
    ∀ l ∈ s.map hopText, l ≠ ".".toList := by
  have hn : ∀ (names : List Name), ∀ h ∈ names.map Hop.name, hopText h ≠ ".".toList := by
    intro names h hm
    obtain ⟨n, -, rfl⟩ := List.mem_map.mp hm
    exact n.isName.2.1
  intro l hl
  obtain ⟨h, hm, rfl⟩ := List.mem_map.mp hl
  obtain ⟨names, rfl | rfl⟩ := hs
  · exact hn names h hm
  · rcases List.mem_cons.mp hm with rfl | hm
    · decide
    · exact hn names h hm

theorem getLast?_render {s : List (Hop Name)} (hne : s ≠ []) :
    (render ⟨true, s⟩).getLast? ≠ some '/' := by
  obtain ⟨init, h, rfl⟩ : ∃ init h, s = init ++ [h] :=
    ⟨_, _, (List.dropLast_append_getLast hne).symm⟩
  have hl : (joined '/' ((init ++ [h]).map hopText)).getLast? = (hopText h).getLast? := by
    rw [List.map_append, List.map_singleton, getLast?_joined (hopText_ne_nil h)]
  have hj : joined '/' ((init ++ [h]).map hopText) ≠ [] := by
    intro hj
    rw [hj, List.getLast?_nil, eq_comm, List.getLast?_eq_none_iff] at hl
    exact hopText_ne_nil h hl
  rw [render_absolute, List.getLast?_cons_of_ne_nil hj, hl]
  exact fun hc => sep_not_mem_hopText h (List.mem_of_getLast? hc)

/-- The system reads the text of a normal path component by component. -/
theorem system_render {s : List (Hop Name)} (hs : Settled s) (hne : s ≠ []) :
    system (render ⟨true, s⟩) = ⟨true, s⟩ := by
  have hsplit : (render ⟨true, s⟩).splitOn '/' = [] :: s.map hopText := by
    have h := List.splitOn_append_cons_self (a := '/') [] (joined '/' (s.map hopText))
    rw [splitOn_joined (fun l hl => ?_) (by simpa using hne)] at h
    · exact h
    · obtain ⟨h, -, rfl⟩ := List.mem_map.mp hl
      exact sep_not_mem_hopText h
  unfold system
  dsimp only
  rw [if_neg (getLast?_render hne), hsplit]
  show (⟨true, _⟩ : OsPath) = _
  congr 1
  rw [List.filterMap_cons_none (by decide)]
  refine Eq.trans (List.filterMap_congr fun l hl => ?_) (hopOf_hopText hs)
  rw [if_neg (hopText_ne_dot hs l hl)]

end OsPath

/-! ## Real paths -/

namespace Os

variable (os : Os)

/-- Where an absolute path leads, if it exists. -/
def reach (hops : List (Hop Name)) : Option (List Name) := resolve os.tree os.links [] hops

theorem canonicalize_absolute (hops : List (Hop Name)) :
    os.canonicalize ⟨true, hops⟩ = os.reach hops := rfl

/-- An entry stands at an absolute path, whether or not it is a link. -/
def stands (hops : List (Hop Name)) : Bool := present os.tree os.links [] hops

theorem symlinkMetadata_absolute (hops : List (Hop Name)) :
    os.symlinkMetadata ⟨true, hops⟩ = os.stands hops := rfl

theorem reach_nil : os.reach [] = some [] := resolve_nil _ _

theorem reach_dots (hop : Hop Name) (h : hop = .here ∨ hop = .up) : os.reach [hop] = some [] := by
  have hd : os.tree.at? [] = some (.dir os.entries) := Node.at?_nil _
  unfold reach
  rcases h with rfl | rfl
  all_goals
    cases os.links with
    | zero => exact walk_dir hd _ _
    | succ links => exact walk_dir hd _ _

theorem reach_linkFree {hops : List (Hop Name)} {loc : List Name} (h : os.reach hops = some loc) :
    LinkFree os.tree loc :=
  resolve_linkFree rfl ⟨_, Node.at?_nil _, rfl⟩ h

/-- What `realPath` answers when the names `rest` are missing or unreachable below a prefix. -/
def reattached (pre : List (Hop Name)) (loc : List Name) : List Name → List Name → Option Str
  | [], rest => some (located (loc ++ rest))
  | n :: names, rest =>
    if os.stands (pre ++ [.name n]) then none else some (located (loc ++ (n :: names) ++ rest))

/-- The deepest prefix that exists, with its location. -/
structure Deepest (hops pre : List (Hop Name)) (loc : List Name) : Prop where
  isPrefix : pre <+: hops
  reached : os.reach pre = some loc
  longest : ∀ q, q <+: hops → (os.reach q).isSome = true → q <+: pre

variable {os}

theorem Deepest.self {hops : List (Hop Name)} {loc : List Name} (h : os.reach hops = some loc) :
    os.Deepest hops hops loc :=
  ⟨List.prefix_rfl, h, fun _ hq _ => hq⟩

theorem Deepest.snoc {init pre : List (Hop Name)} {loc : List Name} {hop : Hop Name}
    (h : os.Deepest init pre loc) (hn : os.reach (init ++ [hop]) = none) :
    os.Deepest (init ++ [hop]) pre loc := by
  refine ⟨h.isPrefix.trans (List.prefix_append _ _), h.reached, fun q hq hs => ?_⟩
  rcases List.prefix_concat_iff.mp hq with rfl | hq
  · rw [hn] at hs
    exact absurd hs (by simp)
  · exact h.longest q hq hs

theorem deepest_reached {whole : OsPath} {hops : List (Hop Name)} {loc : List Name}
    (ha : whole.absolute = true) (h : os.reach hops = some loc) (rest : List Name) :
    os.deepest whole hops.reverse rest = some (located (loc ++ rest)) := by
  unfold deepest
  dsimp only
  rw [ha, List.reverse_reverse, canonicalize_absolute, h]

theorem deepest_snoc {whole : OsPath} {init : List (Hop Name)} {n : Name}
    (ha : whole.absolute = true) (h : os.reach (init ++ [.name n]) = none) (rest : List Name) :
    os.deepest whole (init ++ [Hop.name n]).reverse rest =
      if os.stands (init ++ [.name n]) then none
      else os.deepest whole init.reverse (n :: rest) := by
  rw [List.reverse_concat, deepest]
  rw [← List.reverse_concat, List.reverse_reverse, ha, canonicalize_absolute, h,
    symlinkMetadata_absolute]

/-- The climb finds the deepest prefix and answers by the name below it. -/
theorem deepest_spec (os : Os) {whole : OsPath} (ha : whole.absolute = true)
    {hops : List (Hop Name)} (hs : Settled hops) (rest : List Name) :
    ∃ pre names loc, hops = pre ++ names.map Hop.name ∧ os.Deepest hops pre loc ∧
      os.deepest whole hops.reverse rest = os.reattached pre loc names rest := by
  have hit : ∀ {hops : List (Hop Name)} {loc : List Name} (rest : List Name),
      os.reach hops = some loc → ∃ pre names loc, hops = pre ++ names.map Hop.name ∧
        os.Deepest hops pre loc ∧
          os.deepest whole hops.reverse rest = os.reattached pre loc names rest :=
    fun {hops} {loc} rest h => ⟨hops, [], loc, by simp, .self h, deepest_reached ha h rest⟩
  induction hops using List.reverseRecOn generalizing rest with
  | nil => exact hit rest os.reach_nil
  | append_singleton init hop ih =>
    rcases settled_of_snoc hs with ⟨rfl, rfl⟩ | ⟨n, rfl, hi⟩
    · exact hit rest (os.reach_dots .up (.inr rfl))
    cases hr : os.reach (init ++ [.name n]) with
    | some loc => exact hit rest hr
    | none =>
      obtain ⟨pre, names, loc, he, hd, hv⟩ := ih hi (n :: rest)
      refine ⟨pre, names ++ [n], loc, by simp [he], hd.snoc hr, ?_⟩
      rw [deepest_snoc ha hr, hv]
      cases names with
      | nil =>
        -- the prefix before the name exists, so the name decides
        rw [List.map_nil, List.append_nil] at he
        simp [he, reattached]
      | cons m names =>
        have hi : os.reach init = none := by
          cases hr : os.reach init with
          | none => rfl
          | some l =>
            have hl := (hd.longest init List.prefix_rfl (by simp [hr])).length_le
            simp only [he, List.length_append, List.length_map, List.length_cons] at hl
            omega
        have hp : os.stands (init ++ [.name n]) = false := present_of_not_resolve hi
        rw [hp]
        simp [reattached]

/-- `realPath` of a text whose normal form is absolute. -/
theorem realPath_eq {path : Str} {hops : List (Hop Name)}
    (h : (os.absolute path).lexical = ⟨true, hops⟩) :
    os.realPath path = os.deepest ⟨true, hops⟩ hops.reverse [] := by
  unfold realPath
  rw [h]
  dsimp only
  rw [canonicalize_absolute]
  cases hr : os.reach hops with
  | none => rfl
  | some loc => rw [deepest_reached rfl hr, List.append_nil]

/-- A name that stands below the deepest prefix and is not reached is a link. -/
theorem Deepest.link {hops pre : List (Hop Name)} {loc : List Name} (h : os.Deepest hops pre loc)
    {n : Name} (hn : pre ++ [.name n] <+: hops) (hs : os.stands (pre ++ [.name n]) = true) :
    os.reach (pre ++ [.name n]) = none ∧ ∃ t, os.tree.at? (loc ++ [n]) = some (.link t) := by
  have hr : os.reach (pre ++ [.name n]) = none := by
    cases hr : os.reach (pre ++ [.name n]) with
    | none => rfl
    | some l =>
      have hl := (h.longest _ hn (by simp [hr])).length_le
      rw [List.length_append, List.length_singleton] at hl
      omega
  refine ⟨hr, ?_⟩
  rcases resolve_snoc h.reached n with ⟨hp, -⟩ | ⟨-, hp⟩ | ⟨-, hp⟩
  · rw [show present _ _ _ _ = true from hs] at hp
    exact absurd hp (by simp)
  · rw [show resolve _ _ _ _ = none from hr] at hp
    exact absurd hp (by simp)
  · exact hp

/-- The system reaches a normal absolute path where `reach` says. -/
theorem canonicalize_system {hops : List (Hop Name)} (hs : Settled hops) :
    os.canonicalize (OsPath.system (OsPath.render ⟨true, hops⟩)) = os.reach hops := by
  by_cases hne : hops = []
  · subst hne
    exact (os.reach_dots .here (.inl rfl)).trans os.reach_nil.symm
  · rw [OsPath.system_render hs hne, canonicalize_absolute]

/-- An absolute path in the form `canon` gives. -/
def Lexical (os : Os) (path : Str) : Prop := path.head? = some '/' ∧ os.canon path = path

instance (os : Os) (path : Str) : Decidable (os.Lexical path) :=
  inferInstanceAs (Decidable (_ ∧ _))

theorem Lexical.hops {path : Str} (h : os.Lexical path) :
    ∃ hops, Settled hops ∧ (os.absolute path).lexical = ⟨true, hops⟩ ∧
      path = OsPath.render ⟨true, hops⟩ := by
  have ha : os.absolute path = OsPath.parse path := if_pos h.1
  have habs : (OsPath.parse path).absolute = true := by
    obtain ⟨rest, rfl⟩ : ∃ rest, path = '/' :: rest := by
      cases path with
      | nil => exact absurd h.1 (by simp)
      | cons c rest => exact ⟨rest, by simpa using h.1⟩
    rfl
  obtain ⟨hops, hs, he⟩ := OsPath.lexical_absolute (OsPath.parse path).hops
  have hl : (os.absolute path).lexical = ⟨true, hops⟩ := by
    rw [ha, ← he, ← habs]
  exact ⟨hops, hs, hl, by rw [← hl]; exact h.2.symm⟩

/-! ## Comparison of locations -/

theorem settled_located (loc : List Name) : Settled (loc.map .name) := ⟨loc, .inl rfl⟩

theorem norm_located (loc : List Name) :
    (OsPath.parse (located loc)).lexical.render = located loc := by
  rw [located, OsPath.parse_render (settled_located loc),
    OsPath.lexical_settled (settled_located loc) (.inl rfl)]

theorem located_eq (loc : List Name) : located loc = '/' :: joined '/' (loc.map Name.text) := by
  rw [located, OsPath.render_absolute, List.map_map]
  rfl

/-- A location is compared with an absolute path in normal form component by component. -/
theorem withinRoot_render {hops : List (Hop Name)} {loc : List Name} (hs : Settled hops) :
    withinRoot (located loc) (OsPath.render ⟨true, hops⟩) true = true ↔
      hops <+: loc.map .name := by
  have hnorm : (OsPath.parse (OsPath.render ⟨true, hops⟩)).lexical.render =
      OsPath.render ⟨true, hops⟩ := by
    rw [OsPath.parse_render hs, OsPath.lexical_settled hs (.inl rfl)]
  have hne : ¬ (OsPath.render ⟨true, hops⟩ = [] ∨ OsPath.render ⟨true, hops⟩ = ".".toList) := by
    rw [OsPath.render_absolute]
    simp
  unfold withinRoot
  simp only [if_true, norm_located, hnorm]
  rw [if_neg hne]
  by_cases hroot : hops = []
  · subst hroot
    refine iff_of_true ?_ List.nil_prefix
    rw [located_eq]
    split_ifs with _ hlast
    · rfl
    · rfl
    · exact absurd rfl hlast
  rw [if_neg (OsPath.getLast?_render hroot)]
  by_cases he : located loc = OsPath.render ⟨true, hops⟩
  · rw [if_pos he]
    have hp := congrArg OsPath.parse he
    rw [located, OsPath.parse_render (settled_located loc), OsPath.parse_render hs,
      OsPath.mk.injEq] at hp
    exact iff_of_true rfl (hp.2 ▸ List.prefix_rfl)
  rw [if_neg he, List.isPrefixOf_iff_prefix, located, OsPath.render_absolute,
    OsPath.render_absolute, List.cons_append, List.cons_prefix_cons, and_iff_right rfl]
  by_cases hloc : loc = []
  · subst hloc
    refine iff_of_false (fun h => absurd h.length_le (by simp)) fun h => hroot ?_
    exact List.prefix_nil.mp h
  have hsep (hops : List (Hop Name)) : ∀ l ∈ hops.map OsPath.hopText, '/' ∉ l := by
    intro l hl
    obtain ⟨hop, -, rfl⟩ := List.mem_map.mp hl
    exact sep_not_mem_hopText hop
  rw [joined_prefix_iff (hsep _) (hsep _) (by simpa using hroot) (by simpa using hloc),
    List.prefix_map_iff_of_injective OsPath.hopText_injective, and_iff_left]
  intro hmap
  exact he (by rw [located, OsPath.render_absolute, OsPath.render_absolute, hmap])

/-- The comparison of two locations as texts is the comparison of their names. -/
theorem withinRoot_located {loc root : List Name} :
    withinRoot (located loc) (located root) true = true ↔ root <+: loc :=
  (withinRoot_render (settled_located root)).trans
    (List.prefix_map_iff_of_injective fun _ _ => Hop.name.inj)

/-- No location is at or below a relative path in normal form, unless that is the lone `.`. -/
theorem withinRoot_relative {hops : List (Hop Name)} (loc : List Name) (hs : Settled hops)
    (hne : hops ≠ []) : withinRoot (located loc) (OsPath.render ⟨false, hops⟩) true = false := by
  have hparse := OsPath.parse_render_relative hs hne
  have hnorm : (OsPath.parse (OsPath.render ⟨false, hops⟩)).lexical.render =
      OsPath.render ⟨false, hops⟩ := by
    rw [hparse, OsPath.lexical_settled hs (.inr hne)]
  have hnil : OsPath.render ⟨false, hops⟩ ≠ [] := by
    intro h
    rw [h] at hparse
    exact hne (congrArg OsPath.hops hparse).symm
  have hdot : OsPath.render ⟨false, hops⟩ ≠ ".".toList := by
    intro h
    rw [h] at hparse
    have hhere : [Hop.here] = hops := congrArg OsPath.hops hparse
    obtain ⟨names, rfl | rfl⟩ := hs
    · cases names <;> cases hhere
    · cases hhere
  obtain ⟨c, rest, hr⟩ := List.exists_cons_of_ne_nil hnil
  have hc : c ≠ '/' := by
    rintro rfl
    have habsolute := congrArg OsPath.absolute hparse
    rw [hr] at habsolute
    cases habsolute
  rw [hr] at hnil hdot hnorm ⊢
  unfold withinRoot
  simp only [if_true, norm_located, hnorm]
  rw [if_neg (not_or.mpr ⟨hnil, hdot⟩), located_eq,
    if_neg fun he => hc (List.cons.inj he).1.symm, Bool.eq_false_iff]
  intro h
  rw [List.isPrefixOf_iff_prefix] at h
  split_ifs at h with hlast
  · exact hc (List.cons_prefix_cons.mp h).1
  · exact hc (List.cons_prefix_cons.mp h).1

/-! ## Reads under a root -/

theorem realPath_of_exists {path : Str} {loc : List Name}
    (h : os.canonicalize (os.absolute path).lexical = some loc) :
    os.realPath path = some (located loc) := by
  unfold realPath
  dsimp only
  rw [h]

/-- What is read is a file at the location the path leads to. -/
theorem file_of_read {path text : Str} (h : os.read path = some text) :
    ∃ loc, os.canonicalize (OsPath.system path) = some loc ∧
      os.tree.at? loc = some (.file text) := by
  unfold read at h
  obtain ⟨loc, hloc, hfile⟩ := Option.bind_eq_some_iff.mp h
  refine ⟨loc, hloc, ?_⟩
  split at hfile
  · rw [← Option.some.inj hfile]
    assumption
  · exact absurd hfile (by simp)

/-- What is compared with the root, for a candidate with a location. -/
theorem allows_eq {root candidate : Str} {loc : List Name}
    (h : os.realPath candidate = some (located loc)) :
    (Confinement.new os.toFs (some root)).allows os.toFs candidate =
      withinRoot (located loc) ((os.realPath root).getD (os.canon root)) true := by
  unfold Confinement.allows Confinement.new
  simp only [Option.map_some, Os.toFs, h]

/-- Where a path leads nowhere, its deepest prefix that exists gives its location, unless a link
stands below that prefix. -/
theorem realPath_of_missing {path : Str} {hops : List (Hop Name)} (hs : Settled hops)
    (hl : (os.absolute path).lexical = ⟨true, hops⟩) (h : os.reach hops = none) :
    ∃ pre loc n names, hops = pre ++ (n :: names).map Hop.name ∧ os.Deepest hops pre loc ∧
      LinkFree os.tree loc ∧
      (os.stands (pre ++ [.name n]) = false ∧
          os.realPath path = some (located (loc ++ n :: names)) ∨
        os.stands (pre ++ [.name n]) = true ∧
          (∃ t, os.tree.at? (loc ++ [n]) = some (.link t)) ∧
          os.reach (pre ++ [.name n]) = none ∧ os.realPath path = none) := by
  obtain ⟨pre, names, loc, he, hd, hv⟩ :=
    os.deepest_spec (show OsPath.absolute ⟨true, hops⟩ = true from rfl) hs []
  rw [← realPath_eq hl] at hv
  cases names with
  | nil =>
    rw [List.map_nil, List.append_nil] at he
    rw [he, hd.reached] at h
    exact absurd h (by simp)
  | cons n names =>
    refine ⟨pre, loc, n, names, he, hd, os.reach_linkFree hd.reached, ?_⟩
    rw [hv]
    have hn : pre ++ [.name n] <+: hops := by
      rw [he]
      exact ⟨names.map .name, by simp⟩
    by_cases hst : os.stands (pre ++ [.name n]) = true
    · obtain ⟨hr, ht⟩ := hd.link hn hst
      exact .inr ⟨hst, ht, hr, if_pos hst⟩
    · refine .inl ⟨by simpa using hst, ?_⟩
      rw [reattached, if_neg hst, List.append_nil]

end Os

/-- What `realPath` is to answer: the location of a path that exists, and else the location of its
deepest prefix that exists with the missing names after it, or nothing where the name below that
prefix is a link that leads nowhere. -/
def FollowsLinks (os : Os) (candidate : Str) : Prop :=
  (∀ loc, os.canonicalize (OsPath.system candidate) = some loc →
    LinkFree os.tree loc ∧ os.realPath candidate = some (Os.located loc)) ∧
  (os.canonicalize (OsPath.system candidate) = none →
    ∃ hops pre loc n names, candidate = OsPath.render ⟨true, hops⟩ ∧
      hops = pre ++ (n :: names).map Hop.name ∧ os.Deepest hops pre loc ∧
      LinkFree os.tree loc ∧
      (os.stands (pre ++ [.name n]) = false ∧
          os.realPath candidate = some (Os.located (loc ++ n :: names)) ∨
        os.stands (pre ++ [.name n]) = true ∧
          (∃ t, os.tree.at? (loc ++ [n]) = some (.link t)) ∧
          os.reach (pre ++ [.name n]) = none ∧ os.realPath candidate = none))

theorem followsLinks (os : Os) {candidate : Str} (hc : os.Lexical candidate) :
    FollowsLinks os candidate := by
  obtain ⟨hops, hs, hl, hrender⟩ := hc.hops
  have hcanon : os.canonicalize (OsPath.system candidate) = os.reach hops := by
    rw [hrender, Os.canonicalize_system hs]
  unfold FollowsLinks
  rw [hcanon]
  constructor
  · intro loc h
    refine ⟨os.reach_linkFree h, ?_⟩
    rw [Os.realPath_eq hl, Os.deepest_reached rfl h, List.append_nil]
  · intro h
    obtain ⟨pre, loc, n, names, he, hd, hfree, hv⟩ := Os.realPath_of_missing hs hl h
    exact ⟨hops, pre, loc, n, names, hrender, he, hd, hfree, hv⟩

end MultiSource
