import MultiSource.Go.Walk
import MultiSource.Lib.Inclusion

/-!
# What the C library lets through

A container is a text whose references are the containers in it, so the walk is a load of texts
that include each other. It passes a value exactly if all it emits can be encoded and no container
in it contains itself, and the order maps iterate in does not matter.
-/

namespace MultiSource.Clib.UnsafeWalk

open Inclusion Inclusion.Library

section Reflect

variable {T : Type} [DecidableEq T] {τ : Types T} {m : Memory T}

/-! ## The parts as texts that include each other -/

def ofParts : List (Part T) → Text (PathKey T) Unit Reason
  | [] => .done (.ok ())
  | .ref k :: ps => .refer k fun _ => ofParts ps
  | .text bytes :: ps => if Valid bytes then ofParts ps else .done (.error .utf8)
  | .number :: _ => .done (.error .number)

variable (τ m) in
/-- The containers of memory. -/
def containers : Library (PathKey T) (PathKey T) Unit Reason where
  text k := ofParts (held τ m k)
  names _ k := some k

/-- The reason the walk gives for what a load comes to. -/
def whyOf : Except (Fault (PathKey T) (PathKey T) Reason) Unit → Option Reason
  | .ok _ => none
  | .error (.own _ why) => some why
  | .error _ => some .cycle

omit [DecidableEq T] in
theorem ofParts_ok {ps : List (Part T)} {u : Unit} (h : ofParts ps = .done (.ok u)) :
    (∀ p ∈ ps, p.fault = none ∧ ∀ k, p ≠ .ref k) ∧ ∀ visit, scan visit ps = some none := by
  induction ps with
  | nil => exact ⟨fun _ hp => absurd hp List.not_mem_nil, fun _ => rfl⟩
  | cons p ps ih =>
    cases p with
    | text bytes =>
      rw [ofParts] at h
      split_ifs at h with hv
      · obtain ⟨hps, hscan⟩ := ih h
        refine ⟨fun p hp => ?_, fun visit => by rw [scan, if_pos hv, hscan]⟩
        rcases List.mem_cons.mp hp with rfl | hp
        · exact ⟨if_pos hv, fun _ hk => by cases hk⟩
        · exact hps p hp
      · cases h
    | number => cases h
    | ref k => cases h

omit [DecidableEq T] in
theorem ofParts_error {ps : List (Part T)} {why : Reason} (h : ofParts ps = .done (.error why)) :
    (∃ p ∈ ps, p.fault = some why) ∧ ∀ visit, scan visit ps = some (some why) := by
  induction ps with
  | nil => cases h
  | cons p ps ih =>
    cases p with
    | text bytes =>
      rw [ofParts] at h
      split_ifs at h with hv
      · obtain ⟨⟨p, hp, hf⟩, hscan⟩ := ih h
        exact ⟨⟨p, List.mem_cons_of_mem _ hp, hf⟩, fun visit => by rw [scan, if_pos hv, hscan]⟩
      · obtain rfl := Except.error.inj (Text.done.inj h)
        exact ⟨⟨_, List.mem_cons_self .., if_neg hv⟩, fun visit => by rw [scan, if_neg hv]⟩
    | number =>
      obtain rfl := Except.error.inj (Text.done.inj h)
      exact ⟨⟨_, List.mem_cons_self .., rfl⟩, fun _ => rfl⟩
    | ref k => cases h

omit [DecidableEq T] in
theorem ofParts_refer {ps : List (Part T)} {k : PathKey T}
    {next : Unit → Text (PathKey T) Unit Reason} (h : ofParts ps = .refer k next) :
    ∃ ps₁ qs, ps = ps₁ ++ .ref k :: qs ∧ (∀ p ∈ ps₁, p.fault = none ∧ ∀ k, p ≠ .ref k) ∧
      next = (fun _ => ofParts qs) ∧
        ∀ visit, scan visit ps = (visit k).andThen (scan visit qs) := by
  induction ps with
  | nil => cases h
  | cons p ps ih =>
    cases p with
    | text bytes =>
      rw [ofParts] at h
      split_ifs at h with hv
      · obtain ⟨ps₁, qs, rfl, hps, hnext, hscan⟩ := ih h
        refine ⟨.text bytes :: ps₁, qs, rfl, fun p hp => ?_, hnext, fun visit => ?_⟩
        · rcases List.mem_cons.mp hp with rfl | hp
          · exact ⟨if_pos hv, fun _ hk => by cases hk⟩
          · exact hps p hp
        · rw [scan, if_pos hv, hscan]
    | number => cases h
    | ref j =>
      obtain ⟨rfl, rfl⟩ := Text.refer.inj h
      exact ⟨[], ps, rfl, fun _ hp => absurd hp List.not_mem_nil, rfl, fun _ => rfl⟩

/-- A load of the parts is a walk of them, with enough fuel. -/
theorem scan_of_loads {c : List (PathKey T)} {p : Place (PathKey T) (PathKey T) Unit Reason}
    {es : List (Option (PathKey T) × PathKey T)}
    {o : Except (Fault (PathKey T) (PathKey T) Reason) Unit} (h : (containers τ m).Loads c p es o)
    {ps : List (Part T)} (hp : p.2 = ofParts ps) :
    ∃ fuel₀, ∀ fuel, fuel₀ ≤ fuel → scan (visit τ m fuel c) ps = some (whyOf o) := by
  induction h generalizing ps with
  | value => exact ⟨0, fun fuel _ => (ofParts_ok hp.symm).2 _⟩
  | own => exact ⟨0, fun fuel _ => (ofParts_error hp.symm).2 _⟩
  | missing hn => cases hn
  | cycle hn hm =>
    obtain ⟨ps₁, qs, rfl, -, -, hscan⟩ := ofParts_refer hp.symm
    obtain rfl := Option.some.inj hn
    refine ⟨0, fun fuel _ => ?_⟩
    rw [hscan, visit_of_mem _ hm]
    rfl
  | @fails c a ref next k es f hn hm _ ih =>
    obtain ⟨ps₁, qs, rfl, -, -, hscan⟩ := ofParts_refer hp.symm
    obtain rfl := Option.some.inj hn
    obtain ⟨fuel₀, hfuel⟩ := ih rfl
    refine ⟨fuel₀ + 1, fun fuel hle => ?_⟩
    obtain ⟨fuel, rfl⟩ := Nat.exists_eq_add_of_le' hle
    rw [hscan, ← Nat.add_assoc, visit_succ, if_neg hm, hfuel _ (Nat.le_add_left ..)]
    cases f <;> rfl
  | next hn hm _ _ ih ih' =>
    obtain ⟨ps₁, qs, rfl, -, rfl, hscan⟩ := ofParts_refer hp.symm
    obtain rfl := Option.some.inj hn
    obtain ⟨fuel₀, hfuel⟩ := ih rfl
    obtain ⟨fuel₁, hfuel'⟩ := ih' rfl
    refine ⟨fuel₀ + fuel₁ + 1, fun fuel hle => ?_⟩
    obtain ⟨fuel, rfl⟩ := Nat.exists_eq_add_of_le' hle
    rw [hscan, ← Nat.add_assoc, visit_succ, if_neg hm, hfuel _ (by omega), hfuel' _ (by omega)]
    rfl

/-! ## The containers of a value -/

section Graph

variable (τ m) in
/-- The value as a text among its containers. -/
def place (val : GoValue T) : Place (PathKey T) (PathKey T) Unit Reason :=
  (none, ofParts (parts τ m val))

theorem mem_of_inside {a : Option (PathKey T)} {ps : List (Part T)} {k : PathKey T}
    (h : (containers τ m).Inside (a, ofParts ps) k) : .ref k ∈ ps := by
  generalize hp : (a, ofParts ps) = p at h
  induction h generalizing ps with
  | here =>
    obtain ⟨ps₁, qs, rfl, -⟩ := ofParts_refer (Prod.mk.inj hp).2
    exact List.mem_append_right _ (List.mem_cons_self ..)
  | later _ _ _ ih =>
    obtain ⟨rfl, ht⟩ := Prod.mk.inj hp
    obtain ⟨ps₁, qs, rfl, -, rfl, -⟩ := ofParts_refer ht
    exact List.mem_append_right _ (List.mem_cons_of_mem _ (ih rfl))

theorem faulty_of_ends {a : Option (PathKey T)} {ps : List (Part T)} {why : Reason}
    (h : (containers τ m).Ends (a, ofParts ps) (.error why)) : ∃ p ∈ ps, p.fault = some why := by
  generalize hp : (a, ofParts ps) = p at h
  generalize hr : Except.error why = result at h
  induction h generalizing ps with
  | done =>
    subst hr
    exact (ofParts_error (Prod.mk.inj hp).2).1
  | refer _ _ _ _ ih =>
    obtain ⟨rfl, ht⟩ := Prod.mk.inj hp
    obtain ⟨ps₁, qs, rfl, -, rfl, -⟩ := ofParts_refer ht
    obtain ⟨p, hp, hf⟩ := ih rfl hr
    exact ⟨p, List.mem_append_right _ (List.mem_cons_of_mem _ hp), hf⟩

/-- Parts that load have no fault, and each container among them is met. -/
theorem clean_of_loads {c : List (PathKey T)} {a : Option (PathKey T)} {ps : List (Part T)}
    {es : List (Option (PathKey T) × PathKey T)} {u : Unit}
    (h : (containers τ m).Loads c (a, ofParts ps) es (.ok u)) : ∀ p ∈ ps, p.fault = none ∧
      ∀ k, p = .ref k → (containers τ m).Inside (a, ofParts ps) k := by
  generalize hp : (a, ofParts ps) = p at h
  generalize ho : Except.ok u = o at h
  induction h generalizing ps with
  | value =>
    intro p hmem
    obtain ⟨hf, hk⟩ := (ofParts_ok (Prod.mk.inj hp).2).1 p hmem
    exact ⟨hf, fun k he => absurd he (hk k)⟩
  | own => cases ho
  | missing => cases ho
  | cycle => cases ho
  | fails => cases ho
  | next hn _ hv _ _ ih =>
    obtain ⟨rfl, ht⟩ := Prod.mk.inj hp
    obtain ⟨ps₁, qs, rfl, hps₁, rfl, -⟩ := ofParts_refer ht
    intro p hmem
    rcases List.mem_append.mp hmem with hmem | hmem
    · obtain ⟨hf, hk⟩ := hps₁ p hmem
      exact ⟨hf, fun k he => absurd he (hk k)⟩
    rcases List.mem_cons.mp hmem with rfl | hmem
    · refine ⟨rfl, fun k he => ?_⟩
      obtain rfl := Part.ref.inj he
      exact .here
    · obtain ⟨hf, hk⟩ := ih rfl ho p hmem
      exact ⟨hf, fun k he => .later hn (hv.ends rfl) (hk k he)⟩

variable {val : GoValue T}

theorem refersTo_holds {j k : PathKey T} (h : (containers τ m).RefersTo j k) : Holds τ m j k := by
  obtain ⟨ref, hi, hn⟩ := h
  obtain rfl := Option.some.inj hn
  exact mem_of_inside hi

/-- What stands at the end of a trail of containers is emitted. -/
theorem parts_of_trail {trail : List (PathKey T)}
    (h : (containers τ m).Trail (place τ m val) trail) :
    ∃ ps, (∃ a, (containers τ m).last (place τ m val) trail = (a, ofParts ps)) ∧
      ∀ p ∈ ps, Emits τ m val p ∧ ∀ k, p = .ref k → Reaches τ m val k := by
  induction h with
  | nil =>
    refine ⟨parts τ m val, ⟨_, rfl⟩, fun p hp => ⟨.inl hp, fun k he => ?_⟩⟩
    subst he
    exact ⟨k, hp, .refl⟩
  | snoc _ hr ih =>
    obtain ⟨ps, ⟨a, hlast⟩, hps⟩ := ih
    obtain ⟨ref, hi, hn⟩ : Library.Refers _ (Library.last _ _ _) _ := hr
    obtain rfl := Option.some.inj hn
    rw [hlast] at hi
    have hreach := (hps _ (mem_of_inside hi)).2 _ rfl
    refine ⟨held τ m ref, ⟨some ref, last_concat ..⟩, fun p hp => ⟨.inr ⟨ref, hreach, hp⟩, ?_⟩⟩
    rintro k rfl
    obtain ⟨j, hj, hjk⟩ := hreach
    exact ⟨j, hj, hjk.tail hp⟩

theorem Reaches.of_reached {k : PathKey T} (h : (containers τ m).Reached (place τ m val) k) :
    Reaches τ m val k := by
  obtain ⟨trail, h⟩ := h
  obtain ⟨ht, hr⟩ := h.of_concat
  obtain ⟨ps, ⟨a, hlast⟩, hps⟩ := parts_of_trail ht
  obtain ⟨ref, hi, hn⟩ : Library.Refers _ (Library.last _ _ _) _ := hr
  obtain rfl := Option.some.inj hn
  rw [hlast] at hi
  exact (hps _ (mem_of_inside hi)).2 _ rfl

section Loaded

variable {es : List (Option (PathKey T) × PathKey T)} {u : Unit}
  (h : (containers τ m).Loads [] (place τ m val) es (.ok u))

include h

theorem loads_of_reached {k : PathKey T} (hk : (containers τ m).Reached (place τ m val) k) :
    ∃ c a es' w, (containers τ m).Loads c (a, ofParts (held τ m k)) es' (.ok w) ∧ a = some k := by
  obtain ⟨trail, ht⟩ := hk
  obtain ⟨es', w, hl, -⟩ := h.trail ht
  rw [last_concat] at hl
  exact ⟨_, _, es', w, hl, rfl⟩

theorem refersTo_of_holds {j k : PathKey T} (hj : (containers τ m).Reached (place τ m val) j)
    (hjk : Holds τ m j k) : (containers τ m).RefersTo j k := by
  obtain ⟨c, a, es', w, hl, rfl⟩ := loads_of_reached h hj
  exact ⟨k, (clean_of_loads hl _ hjk).2 k rfl, rfl⟩

theorem Reaches.reached {k : PathKey T} (hk : Reaches τ m val k) :
    (containers τ m).Reached (place τ m val) k := by
  obtain ⟨j, hj, hjk⟩ := hk
  induction hjk with
  | refl => exact .of_refers ⟨j, (clean_of_loads h _ hj).2 j rfl, rfl⟩
  | tail _ hstep ih => exact ih.step (refersTo_of_holds h ih hstep)

theorem fault_of_emits {p : Part T} (hp : Emits τ m val p) : p.fault = none := by
  rcases hp with hp | ⟨k, hk, hp⟩
  · exact (clean_of_loads h _ hp).1
  · obtain ⟨c, a, es', w, hl, -⟩ := loads_of_reached h (hk.reached h)
    exact (clean_of_loads hl _ hp).1

theorem not_transGen {k : PathKey T} (hk : Reaches τ m val k) :
    ¬ Relation.TransGen (Holds τ m) k k := by
  intro hloop
  have hreached := hk.reached h
  have hall : ∀ {x}, Relation.TransGen (Holds τ m) k x →
      Relation.TransGen (containers τ m).RefersTo k x ∧
        (containers τ m).Reached (place τ m val) x := by
    intro x hx
    induction hx with
    | single hs =>
      have hr := refersTo_of_holds h hreached hs
      exact ⟨.single hr, hreached.step hr⟩
    | tail _ hs ih =>
      have hr := refersTo_of_holds h ih.2 hs
      exact ⟨ih.1.tail hr, ih.2.step hr⟩
  exact h.sound.acyclic k hreached (hall hloop).1

end Loaded

/-- What goes wrong in a load is a part that is emitted, or a container in itself. -/
theorem reason_of_blames {f : Fault (PathKey T) (PathKey T) Reason}
    (h : Blames (containers τ m) [] (place τ m val) f) :
    (∃ p, Emits τ m val p ∧ p.fault = whyOf (.error f)) ∨
      whyOf (.error f) = some .cycle ∧
        ∃ k, Reaches τ m val k ∧ Relation.TransGen (Holds τ m) k k := by
  cases h with
  | own ht he =>
    obtain ⟨ps, ⟨a, hlast⟩, hps⟩ := parts_of_trail ht
    rw [hlast] at he
    obtain ⟨p, hp, hf⟩ := faulty_of_ends he
    exact .inl ⟨p, (hps p hp).1, hf⟩
  | missing _ _ hn => cases hn
  | cycle ht hr hm =>
    obtain ⟨hreached, hloop⟩ := ht.loop hr hm
    exact .inr ⟨rfl, _, .of_reached hreached, hloop.lift id fun _ _ => refersTo_holds⟩

end Graph

theorem whyOf_eq_none_iff {val : GoValue T} {es : List (Option (PathKey T) × PathKey T)}
    {o : Except (Fault (PathKey T) (PathKey T) Reason) Unit}
    (h : (containers τ m).Loads [] (place τ m val) es o) :
    whyOf o = none ↔ (∀ p, Emits τ m val p → p.fault = none) ∧
      ∀ k, Reaches τ m val k → ¬ Relation.TransGen (Holds τ m) k k := by
  cases o with
  | ok u => exact iff_of_true rfl ⟨fun p hp => fault_of_emits h hp, fun k hk => not_transGen h hk⟩
  | error f =>
    have hsome : whyOf (.error f) ≠ none := by cases f <;> simp [whyOf]
    refine iff_of_false hsome fun ⟨hclean, hacyclic⟩ => ?_
    rcases reason_of_blames (h.blames rfl rfl .nil (.refl _)) with ⟨p, hp, hf⟩ | ⟨-, k, hk, hloop⟩
    · exact hsome (hf.symm.trans (hclean p hp))
    · exact hacyclic k hk hloop

/-- The walk ends, and whenever it does it says what the load of the parts comes to. -/
theorem exists_answer {val : GoValue T} {keys : List (PathKey T)}
    (hkeys : ∀ k, Reaches τ m val k → k ∈ keys) :
    ∃ es o, (containers τ m).Loads [] (place τ m val) es o ∧
      (∃ fuel₀, ∀ fuel, fuel₀ ≤ fuel → jsonUnsafe τ m fuel val = some (whyOf o)) ∧
      ∀ fuel w, jsonUnsafe τ m fuel val = some w → w = whyOf o := by
  have hroot : ∀ k, (containers τ m).Reached (place τ m val) k → k ∈ keys :=
    fun k hk => hkeys k (.of_reached hk)
  obtain ⟨es, o, h⟩ := exists_loads_of_reached hroot [] .nil (.refl _)
  obtain ⟨fuel₀, hfuel⟩ := scan_of_loads h rfl
  have hans : ∀ fuel, fuel₀ ≤ fuel → jsonUnsafe τ m fuel val = some (whyOf o) := by
    intro fuel hle
    rw [jsonUnsafe_eq_scan]
    exact hfuel fuel hle
  refine ⟨es, o, h, ⟨fuel₀, hans⟩, fun fuel w hw => ?_⟩
  have hmax := jsonUnsafe_mono (Nat.le_max_right fuel₀ fuel) hw
  rw [hans _ (Nat.le_max_left ..)] at hmax
  exact (Option.some.inj hmax).symm

/-- The walk of any value whose containers are finitely many comes to an end, and with one answer.
It passes the value exactly if everything the value emits is UTF-8 or a number of bounded size, and
no container in it contains itself; and the reason it gives otherwise is a true one. -/
theorem jsonUnsafe_exact (τ : Types T) (m : Memory T) (val : GoValue T)
    (hfin : ∃ keys : List (PathKey T), ∀ k, Reaches τ m val k → k ∈ keys) :
    ∃ why, (∃ fuel₀, ∀ fuel, fuel₀ ≤ fuel → jsonUnsafe τ m fuel val = some why) ∧
      (∀ fuel w, jsonUnsafe τ m fuel val = some w → w = why) ∧
      (why = none ↔ (∀ p, Emits τ m val p → p.fault = none) ∧
        ∀ k, Reaches τ m val k → ¬ Relation.TransGen (Holds τ m) k k) ∧
      ∀ r, why = some r → (∃ p, Emits τ m val p ∧ p.fault = some r) ∨
        r = .cycle ∧ ∃ k, Reaches τ m val k ∧ Relation.TransGen (Holds τ m) k k := by
  obtain ⟨keys, hkeys⟩ := hfin
  obtain ⟨es, o, h, hans, hone⟩ := exists_answer hkeys
  refine ⟨whyOf o, hans, hone, whyOf_eq_none_iff h, fun r hr => ?_⟩
  cases o with
  | ok u => cases hr
  | error f =>
    have hreason := reason_of_blames (h.blames rfl rfl .nil (.refl _))
    rw [hr] at hreason
    rcases hreason with hp | ⟨hc, hloop⟩
    · exact .inl hp
    · exact .inr ⟨Option.some.inj hc, hloop⟩

/-! ## The order maps iterate in -/

section Order

variable {m' : Memory T}

variable (τ) in
/-- The second memory is the first with maps that iterate in another order. The keys of a map
differ. -/
def Reordered (m m' : Memory T) : Prop :=
  ∀ k, m' k = m k ∨ ∃ es es', m k = .entries es ∧ m' k = .entries es' ∧ es.Perm es' ∧
    (strKeys τ k.t = true → (es.map fun e => e.1.bytes).Nodup)

omit [DecidableEq T] in
theorem sortKeys_eq {t : T} {es es' : List (GoValue T × GoValue T)} (hp : es.Perm es')
    (hstr : strKeys τ t = true) (hn : (es.map fun e => e.1.bytes).Nodup) :
    sortKeys τ t es' = sortKeys τ t es := by
  have htotal : Std.Total fun a b : GoValue T × GoValue T => a.1.bytes ≤ b.1.bytes :=
    ⟨fun a b => List.le_total a.1.bytes b.1.bytes⟩
  have htrans : IsTrans (GoValue T × GoValue T) fun a b => a.1.bytes ≤ b.1.bytes :=
    ⟨fun _ _ _ => List.le_trans⟩
  unfold sortKeys
  rw [if_pos hstr, if_pos hstr]
  refine List.Perm.eq_of_pairwise (fun a b ha hb hab hba => ?_)
    (List.pairwise_insertionSort _ es') (List.pairwise_insertionSort _ es) ?_
  · have ha' := hp.symm.subset ((List.perm_insertionSort _ es').subset ha)
    have hb' := (List.perm_insertionSort _ es).subset hb
    exact List.inj_on_of_nodup_map hn ha' hb' (List.le_antisymm hab hba)
  · exact (List.perm_insertionSort _ es').trans (hp.symm.trans (List.perm_insertionSort _ es).symm)

omit [DecidableEq T] in
theorem sortKeys_perm {t : T} {es es' : List (GoValue T × GoValue T)} (hp : es.Perm es') :
    (sortKeys τ t es').Perm (sortKeys τ t es) := by
  unfold sortKeys
  split_ifs
  · exact (List.perm_insertionSort _ es').trans
      (hp.symm.trans (List.perm_insertionSort _ es).symm)
  · exact hp.symm

omit [DecidableEq T] in
theorem valueOf_perm {es es' : List (GoValue T × GoValue T)} (hp : es.Perm es')
    (hn : (es.map fun e => e.1.bytes).Nodup) (k : Bytes) : valueOf es' k = valueOf es k := by
  have hfind : es'.find? (fun e => e.1.bytes = k) = es.find? (fun e => e.1.bytes = k) := by
    cases h : es.find? (fun e => decide (e.1.bytes = k)) with
    | none =>
      rw [List.find?_eq_none] at h ⊢
      exact fun e he => h e (hp.symm.subset he)
    | some e =>
      cases h' : es'.find? (fun e => decide (e.1.bytes = k)) with
      | none =>
        rw [List.find?_eq_none] at h'
        exact absurd (List.find?_some h) (h' e (hp.subset (List.mem_of_find?_eq_some h)))
      | some e' =>
        have he := List.find?_some h
        have he' := List.find?_some h'
        simp only [decide_eq_true_eq] at he he'
        rw [List.inj_on_of_nodup_map hn (hp.symm.subset (List.mem_of_find?_eq_some h'))
          (List.mem_of_find?_eq_some h) (he'.trans he.symm)]
  unfold valueOf
  rw [hfind]

namespace Reordered

variable (h : Reordered τ m m')

include h

omit [DecidableEq T] in
theorem cellAt_asBytes (t : T) (addr len : ℕ) :
    (cellAt τ m' t addr len).asBytes = (cellAt τ m t addr len).asBytes := by
  unfold cellAt
  split_ifs
  · rfl
  · rcases h (pathKey τ t addr len) with he | ⟨es, es', he, he', -⟩
    · rw [he]
    · rw [he, he']
      rfl

omit [DecidableEq T] in
theorem cellAt_asElems (t : T) (addr len : ℕ) :
    (cellAt τ m' t addr len).asElems = (cellAt τ m t addr len).asElems := by
  unfold cellAt
  split_ifs
  · rfl
  · rcases h (pathKey τ t addr len) with he | ⟨es, es', he, he', -⟩
    · rw [he]
    · rw [he, he']
      rfl

omit [DecidableEq T] in
theorem valueOf_vals (hvals : strKeys τ τ.valsType = true) (addr : ℕ) (k : Bytes) :
    valueOf (cellAt τ m' τ.valsType addr 0).asEntries k =
      valueOf (cellAt τ m τ.valsType addr 0).asEntries k := by
  unfold cellAt
  split_ifs
  · rfl
  · rcases h (pathKey τ τ.valsType addr 0) with he | ⟨es, es', he, he', hp, hn⟩
    · rw [he]
    · rw [he, he']
      exact valueOf_perm hp (hn hvals) k

omit h

mutual

theorem parts_eq (h : Reordered τ m m') : ∀ v : GoValue T, parts τ m' v = parts τ m v
  | .invalid => rfl
  | .word t => rfl
  | .string t bytes => rfl
  | .interface t v => by rw [parts, parts, parts_eq h v]
  | .ref t addr len => by rw [parts, parts, h.cellAt_asBytes]
  | .array t vs => by rw [parts, parts, partsOfElems_eq h vs]
  | .struct t vs => by rw [parts, parts, partsOfFields_eq h (τ.fields t) vs]

theorem partsOfElems_eq (h : Reordered τ m m') :
    ∀ vs : List (GoValue T), partsOfElems τ m' vs = partsOfElems τ m vs
  | [] => rfl
  | v :: vs => by rw [partsOfElems, partsOfElems, parts_eq h v, partsOfElems_eq h vs]

theorem partsOfFields_eq (h : Reordered τ m m') : ∀ (fs : List (Field T)) (vs : List (GoValue T)),
    partsOfFields τ m' fs vs = partsOfFields τ m fs vs
  | f :: fs, v :: vs => by
    rw [partsOfFields, partsOfFields, parts_eq h v, partsOfFields_eq h fs vs]
  | [], _ => by simp [partsOfFields]
  | _ :: _, [] => by simp [partsOfFields]

end

include h

theorem orderedNode_eq (v : GoValue T) :
    orderedNode τ m v = none ∧ orderedNode τ m' v = none ∨
      ∃ keys addr, orderedNode τ m v = some (keys, (cellAt τ m τ.valsType addr 0).asEntries) ∧
        orderedNode τ m' v = some (keys, (cellAt τ m' τ.valsType addr 0).asEntries) := by
  cases v with
  | struct t vs =>
    simp only [orderedNode]
    split_ifs
    · split
      · split_ifs with ht
        · obtain ⟨rfl, rfl⟩ := ht
          rw [h.cellAt_asElems]
          exact .inr ⟨_, _, rfl, rfl⟩
        · exact .inl ⟨rfl, rfl⟩
      · exact .inl ⟨rfl, rfl⟩
    · exact .inl ⟨rfl, rfl⟩
  | _ => exact .inl ⟨rfl, rfl⟩

theorem held_pointee (hvals : strKeys τ τ.valsType = true) (t : T) (v : GoValue T) :
    partsOfCell τ m' t (.pointee v) = partsOfCell τ m t (.pointee v) := by
  rcases h.orderedNode_eq v with ⟨he, he'⟩ | ⟨keys, addr, he, he'⟩
  · simp only [partsOfCell, he, he', parts_eq h]
  · simp only [partsOfCell, he, he', parts_eq h, h.valueOf_vals hvals]

/-- What a container holds is the same but for the order. -/
theorem held_perm (hvals : strKeys τ τ.valsType = true) (k : PathKey T) :
    (held τ m' k).Perm (held τ m k) := by
  unfold held
  rcases h k with he | ⟨es, es', he, he', hp, -⟩
  · rw [he]
    cases hk : m k with
    | pointee v => rw [h.held_pointee hvals]
    | entries es => simp only [partsOfCell, parts_eq h, List.Perm.refl]
    | elems vs => rw [partsOfCell, partsOfCell, partsOfElems_eq h]
    | bytes bs => exact .refl _
  · rw [he, he']
    simp only [partsOfCell, parts_eq h]
    exact (sortKeys_perm hp).flatMap_right _

theorem held_eq (hvals : strKeys τ τ.valsType = true)
    (hstr : ∀ k, m' k ≠ m k → strKeys τ k.t = true) (k : PathKey T) :
    held τ m' k = held τ m k := by
  unfold held
  rcases h k with he | ⟨es, es', he, he', hp, hn⟩
  · rw [he]
    cases hk : m k with
    | pointee v => rw [h.held_pointee hvals]
    | entries es => simp only [partsOfCell, parts_eq h]
    | elems vs => rw [partsOfCell, partsOfCell, partsOfElems_eq h]
    | bytes bs => rfl
  · by_cases hs : strKeys τ k.t = true
    · rw [he, he', partsOfCell, partsOfCell, sortKeys_eq hp hs (hn hs)]
      simp only [parts_eq h]
    · have hsame : m' k = m k := by
        by_contra hne
        exact hs (hstr k hne)
      rw [hsame, he]
      simp only [partsOfCell, parts_eq h]

theorem visit_eq (hvals : strKeys τ τ.valsType = true)
    (hstr : ∀ k, m' k ≠ m k → strKeys τ k.t = true) (fuel : ℕ) (onPath : List (PathKey T)) :
    visit τ m' fuel onPath = visit τ m fuel onPath := by
  induction fuel generalizing onPath with
  | zero => rfl
  | succ fuel ih =>
    funext k
    rw [visit_succ, visit_succ, ih, h.held_eq hvals hstr]

theorem holds_iff (hvals : strKeys τ τ.valsType = true) : Holds τ m' = Holds τ m := by
  funext j k
  exact propext (h.held_perm hvals j).mem_iff

theorem reaches_iff (hvals : strKeys τ τ.valsType = true) (val : GoValue T) (k : PathKey T) :
    Reaches τ m' val k ↔ Reaches τ m val k := by
  unfold Reaches
  rw [parts_eq h, h.holds_iff hvals]

theorem emits_iff (hvals : strKeys τ τ.valsType = true) (val : GoValue T) (p : Part T) :
    Emits τ m' val p ↔ Emits τ m val p := by
  unfold Emits
  rw [parts_eq h]
  simp only [h.reaches_iff hvals, (h.held_perm hvals _).mem_iff]

end Reordered

/-- The order a map iterates in does not decide whether the value is passed, and where the keys are
strings it does not decide the reason either. -/
theorem jsonUnsafe_of_reordered (τ : Types T) {m m' : Memory T} (h : Reordered τ m m')
    (hvals : strKeys τ τ.valsType = true) (val : GoValue T)
    (hfin : ∃ keys : List (PathKey T), ∀ k, Reaches τ m val k → k ∈ keys) :
    (∀ fuel fuel' why why', jsonUnsafe τ m fuel val = some why →
      jsonUnsafe τ m' fuel' val = some why' → (why = none ↔ why' = none)) ∧
    ((∀ k, m' k ≠ m k → strKeys τ k.t = true) →
      ∀ fuel, jsonUnsafe τ m' fuel val = jsonUnsafe τ m fuel val) := by
  obtain ⟨keys, hkeys⟩ := hfin
  refine ⟨fun fuel fuel' why why' hw hw' => ?_, fun hstr fuel => ?_⟩
  · obtain ⟨es, o, hl, -, hone⟩ := exists_answer hkeys
    obtain ⟨es', o', hl', -, hone'⟩ :=
      exists_answer fun k hk => hkeys k ((h.reaches_iff hvals val k).mp hk)
    rw [hone _ _ hw, hone' _ _ hw', whyOf_eq_none_iff hl, whyOf_eq_none_iff hl',
      h.holds_iff hvals]
    simp only [h.reaches_iff hvals, h.emits_iff hvals]
  · rw [jsonUnsafe_eq_scan, jsonUnsafe_eq_scan, h.visit_eq hvals hstr, Reordered.parts_eq h]

end Order

end Reflect

/-! ## Two small memories -/

/-- Strings, maps with string keys, raw fragments, the two big numbers, and lists. -/
def fewTypes : Types ℕ where
  kind t := [Kind.string, .map, .slice, .struct, .struct, .slice].getD t .slice
  elem _ := 0
  key _ := 0
  pkgPath _ := []
  name _ := []
  fields _ := []
  rawMessageType := 2
  bigIntType := 3
  bigFloatType := 4
  stringsType := 5
  valsType := 1

/-- A list whose one element is the list itself. -/
def inItself : Memory ℕ := fun _ => .elems [.ref 5 1 1]

theorem jsonUnsafe_exact_inItself :
    jsonUnsafe fewTypes inItself 1 (.ref 5 1 1) = some (some .cycle) ∧
      ∃ k, Reaches fewTypes inItself (.ref 5 1 1) k ∧
        Relation.TransGen (Holds fewTypes inItself) k k := by
  have hwalk : jsonUnsafe fewTypes inItself 1 (.ref 5 1 1) = some (some .cycle) := by decide
  have hheld : ∀ j k, Holds fewTypes inItself j k → k = ⟨1, 1, 5⟩ := fun j k h =>
    Part.ref.inj (List.mem_singleton.mp h)
  obtain ⟨why, -, hone, -, hreason⟩ := jsonUnsafe_exact fewTypes inItself (.ref 5 1 1) <| by
    refine ⟨[⟨1, 1, 5⟩], fun k ⟨j, hj, hjk⟩ => List.mem_singleton.mpr ?_⟩
    rcases Relation.ReflTransGen.cases_tail hjk with rfl | ⟨i, -, hik⟩
    · exact Part.ref.inj (List.mem_singleton.mp hj)
    · exact hheld i k hik
  refine ⟨hwalk, ?_⟩
  rcases hreason .cycle (hone _ _ hwalk).symm with ⟨p, -, hp⟩ | ⟨-, hloop⟩
  · cases p with
    | text bytes =>
      rw [Part.fault] at hp
      split_ifs at hp
      cases hp
    | number => cases hp
    | ref k => cases hp
  · exact hloop

/-- A map with two keys, that iterates one way or the other. -/
def twoKeys (swapped : Bool) : Memory ℕ := fun _ =>
  .entries (if swapped then [(.string 0 [98], .word 9), (.string 0 [97], .invalid)]
    else [(.string 0 [97], .invalid), (.string 0 [98], .word 9)])

theorem jsonUnsafe_of_reordered_twoKeys :
    jsonUnsafe fewTypes (twoKeys true) 1 (.ref 1 1 0) =
      jsonUnsafe fewTypes (twoKeys false) 1 (.ref 1 1 0) := by
  have horder : Reordered fewTypes (twoKeys false) (twoKeys true) := by
    refine fun k => .inr ⟨_, _, rfl, rfl, .swap .., fun _ => ?_⟩
    decide
  have hheld : ∀ j, held fewTypes (twoKeys false) j = [.text [97], .text [98]] := fun _ => rfl
  refine (jsonUnsafe_of_reordered fewTypes horder rfl (.ref 1 1 0) ?_).2 (fun _ _ => rfl) 1
  refine ⟨[⟨1, 0, 1⟩], fun k ⟨j, hj, hjk⟩ => List.mem_singleton.mpr ?_⟩
  rcases Relation.ReflTransGen.cases_tail hjk with rfl | ⟨i, -, hik⟩
  · exact Part.ref.inj (List.mem_singleton.mp hj)
  · rw [Holds, hheld] at hik
    simp at hik

end MultiSource.Clib.UnsafeWalk
