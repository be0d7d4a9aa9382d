import Mathlib.Data.List.Basic

/-!
# Directory trees with symbolic links

A static tree of directories, files and links, and path resolution over it in the POSIX way: links
are followed where they stand, also the last one, `..` goes to the parent of the directory reached,
and a resolution that meets more than a given number of links fails, as a loop does.

Places are lists of names from the root. `at?` descends without following a link, so a place where
it finds something that is no link is the link-free location of that thing.
-/

namespace LinkTree

/-- One component of a path. -/
inductive Hop (N : Type) : Type
  | here
  | up
  | name (n : N)
  deriving DecidableEq

/-- Where a link points. A target is never the empty path. -/
structure Target (N : Type) where
  absolute : Bool
  hops : List (Hop N)
  nonempty : absolute = true ∨ hops ≠ []

/-- A node of a tree with entry names in `N` and file contents in `C`. -/
inductive Node (N C : Type) : Type
  | file (content : C)
  | link (target : Target N)
  | dir (entries : List (N × Node N C))

variable {N C : Type} [DecidableEq N]

def entry (n : N) : List (N × Node N C) → Option (Node N C)
  | [] => none
  | (m, x) :: es => if m = n then some x else entry n es

namespace Node

def isLink : Node N C → Bool
  | .link _ => true
  | _ => false

/-- The node at a place, no link followed. -/
def at? : Node N C → List N → Option (Node N C)
  | x, [] => some x
  | .dir es, n :: ns =>
    match entry n es with
    | some x => x.at? ns
    | none => none
  | .file _, _ :: _ => none
  | .link _, _ :: _ => none

@[simp] theorem at?_nil (x : Node N C) : x.at? [] = some x := by
  unfold at?; rfl

theorem at?_append (x : Node N C) (as bs : List N) :
    x.at? (as ++ bs) = (x.at? as).bind (·.at? bs) := by
  induction as generalizing x with
  | nil => simp
  | cons n as ih =>
    cases x with
    | file c => rfl
    | link t => rfl
    | dir es =>
      simp only [List.cons_append, at?]
      cases entry n es with
      | none => rfl
      | some y => exact ih y

theorem at?_snoc {x : Node N C} {as : List N} {es : List (N × Node N C)}
    (h : x.at? as = some (.dir es)) (n : N) : x.at? (as ++ [n]) = entry n es := by
  rw [at?_append, h, Option.bind_some, at?]
  cases entry n es <;> simp

end Node

/-- Something that is no link is found at the place without following any. -/
def LinkFree (root : Node N C) (loc : List N) : Prop :=
  ∃ x, root.at? loc = some x ∧ x.isLink = false

theorem linkFree_dropLast {root : Node N C} {loc : List N} (h : LinkFree root loc) :
    LinkFree root loc.dropLast := by
  rcases List.eq_nil_or_concat loc with rfl | ⟨as, n, rfl⟩
  · exact h
  · obtain ⟨x, hx, -⟩ := h
    rw [List.concat_eq_append, List.dropLast_concat]
    rw [List.concat_eq_append, Node.at?_append] at hx
    cases ha : root.at? as with
    | none => simp [ha] at hx
    | some y =>
      refine ⟨y, ha ▸ by simp, ?_⟩
      cases y with
      | link t => simp [ha, Node.at?] at hx
      | file c => rfl
      | dir es => rfl

/-- Above a place that is there lie directories. -/
theorem dir_of_at?_append {root x : Node N C} {as bs : List N} (h : root.at? (as ++ bs) = some x)
    (hb : bs ≠ []) : ∃ es, root.at? as = some (.dir es) := by
  rw [Node.at?_append] at h
  obtain ⟨y, hy, hx⟩ := Option.bind_eq_some_iff.mp h
  obtain ⟨n, bs, rfl⟩ := List.exists_cons_of_ne_nil hb
  cases y with
  | file c => cases hx
  | link t => cases hx
  | dir es => exact ⟨es, hy⟩

theorem LinkFree.of_append {root : Node N C} {as bs : List N} (h : LinkFree root (as ++ bs)) :
    LinkFree root as := by
  obtain ⟨x, hx, hl⟩ := h
  by_cases hb : bs = []
  · rw [hb, List.append_nil] at hx
    exact ⟨x, hx, hl⟩
  · obtain ⟨es, he⟩ := dir_of_at?_append hx hb
    exact ⟨_, he, rfl⟩

section Resolve

variable (root : Node N C)

/-- Walk from a place, handing every link to `follow` with the place its target starts from. -/
def walk (follow : List N → List (Hop N) → Option (List N)) :
    List N → List (Hop N) → Option (List N)
  | cur, [] => some cur
  | cur, h :: hs =>
    match root.at? cur with
    | some (.dir es) =>
      match h with
      | .here => walk follow cur hs
      | .up => walk follow cur.dropLast hs
      | .name n =>
        match entry n es with
        | none => none
        | some (.link t) => follow (if t.absolute then [] else cur) (t.hops ++ hs)
        | some _ => walk follow (cur ++ [n]) hs
    | _ => none

/-- The location a path leads to, with at most `links` links followed on the way. -/
def resolve : ℕ → List N → List (Hop N) → Option (List N)
  | 0 => walk root fun _ _ => none
  | links + 1 => walk root (resolve links)

/-- `lstat` finds something: the last component is there, whether or not it is a link. -/
def present (links : ℕ) (cur : List N) (hops : List (Hop N)) : Bool :=
  match hops.getLast? with
  | none => true
  | some h =>
    match resolve root links cur hops.dropLast with
    | none => false
    | some loc =>
      match root.at? loc, h with
      | some (.dir es), .name n => (entry n es).isSome
      | some (.dir _), _ => true
      | _, _ => false

variable {root}

@[simp] theorem walk_nil {follow : List N → List (Hop N) → Option (List N)} {cur : List N} :
    walk root follow cur [] = some cur := rfl

theorem resolve_nil (links : ℕ) (cur : List N) : resolve root links cur [] = some cur := by
  cases links <;> rfl

theorem walk_of_not_dir {follow : List N → List (Hop N) → Option (List N)} {cur : List N}
    (hd : ∀ es, root.at? cur ≠ some (.dir es)) (h : Hop N) (hs : List (Hop N)) :
    walk root follow cur (h :: hs) = none := by
  rw [walk]
  split
  · exact absurd ‹_› (hd _)
  · rfl

theorem walk_dir {follow : List N → List (Hop N) → Option (List N)} {cur : List N}
    {es : List (N × Node N C)} (hd : root.at? cur = some (.dir es)) (h : Hop N)
    (hs : List (Hop N)) :
    walk root follow cur (h :: hs) =
      match h with
      | .here => walk root follow cur hs
      | .up => walk root follow cur.dropLast hs
      | .name n =>
        match entry n es with
        | none => none
        | some (.link t) => follow (if t.absolute then [] else cur) (t.hops ++ hs)
        | some _ => walk root follow (cur ++ [n]) hs := by
  rw [walk, hd]

/-- The names of a link-free location lead to it. -/
theorem walk_names {follow : List N → List (Hop N) → Option (List N)} {names : List N} :
    ∀ {cur : List N}, LinkFree root (cur ++ names) →
      walk root follow cur (names.map .name) = some (cur ++ names) := by
  induction names with
  | nil =>
    intro cur _
    rw [List.map_nil, walk_nil, List.append_nil]
  | cons n names ih =>
    intro cur h
    rw [List.append_cons] at h ⊢
    obtain ⟨x, hx, hl⟩ := h.of_append
    obtain ⟨es, hd⟩ := dir_of_at?_append hx (List.cons_ne_nil _ _)
    rw [Node.at?_snoc hd] at hx
    rw [List.map_cons, walk_dir hd]
    dsimp only
    rw [hx]
    cases x with
    | link t => cases hl
    | file c => exact ih h
    | dir es' => exact ih h

theorem resolve_names (links : ℕ) {loc : List N} (h : LinkFree root loc) :
    resolve root links [] (loc.map .name) = some loc := by
  cases links with
  | zero => exact walk_names h
  | succ links => exact walk_names h

/-- A path that leads anywhere by a component starts from a directory. -/
theorem dir_of_resolve {links : ℕ} {cur loc : List N} {h : Hop N} {hs : List (Hop N)}
    (hr : resolve root links cur (h :: hs) = some loc) : ∃ es, root.at? cur = some (.dir es) := by
  by_contra hd
  have hnone (follow : List N → List (Hop N) → Option (List N)) :
      walk root follow cur (h :: hs) = none := walk_of_not_dir (fun es he => hd ⟨es, he⟩) h hs
  cases links with
  | zero => cases (hnone _).symm.trans hr
  | succ links => cases (hnone _).symm.trans hr

/-- In a directory `.` is the directory. -/
theorem resolve_here {cur : List N} {es : List (N × Node N C)} (hd : root.at? cur = some (.dir es))
    (links : ℕ) : resolve root links cur [.here] = some cur := by
  cases links with
  | zero => exact walk_dir hd _ _
  | succ links => exact walk_dir hd _ _

/-- A walk over a first part of a path goes on from where that part leads, with some of the links
left. -/
theorem walk_append {follow : List N → List (Hop N) → Option (List N)}
    (hf : ∀ cur as loc, follow cur as = some loc →
      ∃ l, ∀ bs, follow cur (as ++ bs) = resolve root l loc bs)
    (hw : ∀ cur, ∃ l, ∀ bs, walk root follow cur bs = resolve root l cur bs)
    {as : List (Hop N)} : ∀ {cur loc : List N}, walk root follow cur as = some loc →
      ∃ l, ∀ bs, walk root follow cur (as ++ bs) = resolve root l loc bs := by
  induction as with
  | nil =>
    intro cur loc h
    rw [walk_nil, Option.some.injEq] at h
    subst h
    exact hw cur
  | cons h as ih =>
    intro cur loc hr
    by_cases hd : ∃ es, root.at? cur = some (.dir es)
    · obtain ⟨es, hd⟩ := hd
      rw [walk_dir hd] at hr
      simp only [List.cons_append, walk_dir hd]
      cases h with
      | here => exact ih hr
      | up => exact ih hr
      | name n =>
        cases he : entry n es with
        | none => simp [he] at hr
        | some x =>
          simp only [he] at hr ⊢
          cases x with
          | file c => exact ih hr
          | dir es' => exact ih hr
          | link t =>
            obtain ⟨l, hl⟩ := hf _ _ _ hr
            exact ⟨l, fun bs => by simpa only [List.append_assoc] using hl bs⟩
    · rw [walk_of_not_dir (fun es he => hd ⟨es, he⟩)] at hr
      exact absurd hr (by simp)

theorem resolve_append {links : ℕ} {cur loc : List N} {as : List (Hop N)}
    (h : resolve root links cur as = some loc) :
    ∃ l, ∀ bs, resolve root links cur (as ++ bs) = resolve root l loc bs := by
  induction links generalizing cur loc as with
  | zero => exact walk_append (fun _ _ _ h => absurd h (by simp)) (fun _ => ⟨0, fun _ => rfl⟩) h
  | succ links ih => exact walk_append (fun _ _ _ h => ih h) (fun _ => ⟨links + 1, fun _ => rfl⟩) h

theorem walk_linkFree {follow : List N → List (Hop N) → Option (List N)}
    (hf : ∀ cur as loc, LinkFree root cur → follow cur as = some loc → LinkFree root loc)
    (h0 : LinkFree root []) {as : List (Hop N)} : ∀ {cur loc : List N}, LinkFree root cur →
      walk root follow cur as = some loc → LinkFree root loc := by
  induction as with
  | nil =>
    intro cur loc hc h
    rw [walk_nil, Option.some.injEq] at h
    exact h ▸ hc
  | cons h as ih =>
    intro cur loc hc hr
    by_cases hd : ∃ es, root.at? cur = some (.dir es)
    · obtain ⟨es, hd⟩ := hd
      rw [walk_dir hd] at hr
      cases h with
      | here => exact ih hc hr
      | up => exact ih (linkFree_dropLast hc) hr
      | name n =>
        cases he : entry n es with
        | none => simp [he] at hr
        | some x =>
          simp only [he] at hr
          have hx : root.at? (cur ++ [n]) = some x := (Node.at?_snoc hd n).trans he
          cases x with
          | file c => exact ih ⟨_, hx, rfl⟩ hr
          | dir es' => exact ih ⟨_, hx, rfl⟩ hr
          | link t =>
            refine hf _ _ _ ?_ hr
            by_cases ht : t.absolute = true
            · rw [if_pos ht]; exact h0
            · rw [if_neg ht]; exact hc
    · rw [walk_of_not_dir (fun es he => hd ⟨es, he⟩)] at hr
      exact absurd hr (by simp)

/-- From a root that is no link, resolution ends at a link-free location. -/
theorem resolve_linkFree {links : ℕ} {cur loc : List N} {as : List (Hop N)}
    (h0 : root.isLink = false) (hc : LinkFree root cur)
    (h : resolve root links cur as = some loc) : LinkFree root loc := by
  have hr : LinkFree root [] := ⟨root, Node.at?_nil root, h0⟩
  induction links generalizing cur loc as with
  | zero => exact walk_linkFree (fun _ _ _ _ h => absurd h (by simp)) hr hc h
  | succ links ih => exact walk_linkFree (fun _ _ _ hc h => ih hc h) hr hc h

/-- One more name is present where there is something of that name. -/
theorem present_snoc {links : ℕ} {cur loc : List N} {as : List (Hop N)}
    (h : resolve root links cur as = some loc) (n : N) :
    present root links cur (as ++ [.name n]) = (root.at? (loc ++ [n])).isSome := by
  simp only [present, List.getLast?_append, List.getLast?_singleton, Option.some_or,
    List.dropLast_concat, h]
  rw [Node.at?_append]
  cases root.at? loc with
  | none => rfl
  | some y =>
    cases y with
    | file c => rfl
    | link t => rfl
    | dir es =>
      rw [Option.bind_some, Node.at?]
      cases he : entry n es <;> simp [he]

/-- What one more name does to a path that resolves: it is not there, it is there, or it is a
link. -/
theorem resolve_snoc {links : ℕ} {cur loc : List N} {as : List (Hop N)}
    (h : resolve root links cur as = some loc) (n : N) :
    (present root links cur (as ++ [.name n]) = false ∧
        resolve root links cur (as ++ [.name n]) = none) ∨
      (present root links cur (as ++ [.name n]) = true ∧
        resolve root links cur (as ++ [.name n]) = some (loc ++ [n])) ∨
      (present root links cur (as ++ [.name n]) = true ∧
        ∃ t, root.at? (loc ++ [n]) = some (.link t)) := by
  obtain ⟨l, hl⟩ := resolve_append h
  rw [hl, present_snoc h]
  by_cases hd : ∃ es, root.at? loc = some (.dir es)
  · obtain ⟨es, hd⟩ := hd
    have hw : ∀ follow, walk root follow loc [.name n] =
        match entry n es with
        | none => none
        | some (.link t) => follow (if t.absolute then [] else loc) (t.hops ++ [])
        | some _ => walk root follow (loc ++ [n]) [] := fun _ => walk_dir hd _ _
    rw [Node.at?_snoc hd]
    cases he : entry n es with
    | none =>
      refine .inl ⟨rfl, ?_⟩
      cases l <;> simp [resolve, hw, he]
    | some x =>
      cases x with
      | link t => exact .inr (.inr ⟨rfl, t, rfl⟩)
      | file c =>
        refine .inr (.inl ⟨rfl, ?_⟩)
        cases l <;> simp [resolve, hw, he]
      | dir es' =>
        refine .inr (.inl ⟨rfl, ?_⟩)
        cases l <;> simp [resolve, hw, he]
  · have hnone : root.at? (loc ++ [n]) = none := by
      cases hx : root.at? (loc ++ [n]) with
      | none => rfl
      | some x => exact absurd (dir_of_at?_append hx (List.cons_ne_nil _ _)) hd
    refine .inl ⟨by rw [hnone]; rfl, ?_⟩
    cases l <;> exact walk_of_not_dir (fun es he => hd ⟨es, he⟩) _ _

/-- Nothing is present below a path that does not resolve. -/
theorem present_of_not_resolve {links : ℕ} {cur : List N} {as : List (Hop N)} {h : Hop N}
    (ha : resolve root links cur as = none) : present root links cur (as ++ [h]) = false := by
  simp [present, ha]

end Resolve

end LinkTree
