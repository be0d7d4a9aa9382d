import MultiSource.Ledger
import Mathlib.Data.List.Nodup
import Mathlib.Data.List.Perm.Subperm

/-!
# Report slots

Any number of parses share one map of report slots. A ticket is minted for one load and spent by
it, so a slot is written by the parse nested in that load and read by the load alone.
-/

namespace MultiSource

open Interaction

variable {I : Type} {options : MultiSourceOptions} {engine : Engine I options.markchar}
  {W : World I}

/-- The slot a load in progress occupies. -/
def Note.slot (n : Note I) : Option (Str × Report) :=
  match n.held, n.noted with
  | some ticket, some report => some (ticket, report)
  | _, _ => none

/-- The ticket an operation spends. -/
def spent (e : Event (sig I)) : Option Str :=
  match e.1 with
  | .take ticket _ => some ticket
  | .discard ticket => some ticket
  | _ => none

section Thread

variable (t : Running options I)

def slotsOf : List (Str × Report) := t.notes.filterMap Note.slot

/-- The tickets of a thread: those its loads hold, and those it has spent. -/
def ticketsOf : List Str :=
  t.notes.filterMap Note.held ++ t.trace.filterMap fun e => spent e.2

end Thread

theorem slot_eq_some {n : Note I} {e : Str × Report} :
    n.slot = some e ↔ n.held = some e.1 ∧ n.noted = some e.2 := by
  obtain ⟨ticket, report⟩ := e
  unfold Note.slot
  cases n.held <;> cases n.noted <;> simp

theorem slot_eq_none {n : Note I} (h : n.noted = none) : n.slot = none := by
  unfold Note.slot
  rw [h]
  cases n.held <;> rfl

theorem mem_slots {ns : List (Note I)} {ticket : Str} {report : Report} :
    (ticket, report) ∈ ns.filterMap Note.slot ↔
      ∃ n ∈ ns, n.held = some ticket ∧ n.noted = some report := by
  simp only [List.mem_filterMap, slot_eq_some]

theorem held_of_mem_slots {ns : List (Note I)} {ticket : Str} {report : Report}
    (h : (ticket, report) ∈ ns.filterMap Note.slot) : ticket ∈ ns.filterMap Note.held := by
  obtain ⟨n, hn, hh, -⟩ := mem_slots.mp h
  exact List.mem_filterMap.mpr ⟨n, hn, hh⟩

theorem ticket_of_mem_slotsOf {t : Running options I} {ticket : Str}
    {report : Report} (h : (ticket, report) ∈ slotsOf t) : ticket ∈ ticketsOf t :=
  List.mem_append_left _ (held_of_mem_slots h)

theorem nodup_of_subperm {l l' : List Str} (h : l'.Subperm l) (hl : l.Nodup) : l'.Nodup :=
  List.nodup_iff_count_le_one.mpr fun a =>
    (h.count_le a).trans (List.nodup_iff_count_le_one.mp hl a)

/-! ## One step -/

section Step

/-- A frame waiting on a thread of the pool. -/
abbrev Frame (options : MultiSourceOptions) (I : Type) : Type :=
  (ledger (I := I) options).Note × (Except TabnasError Value → Program I (Except TabnasError Value))

/-- Only a record is heard below. -/
theorem hear_eq_self {o : Op I} {r : o.Resp} (h : ∀ ticket report, o ≠ .record ticket report)
    (cs : List (Frame options I)) : hear (S := sig I) (I := ledger options) o r cs = cs := by
  cases cs with
  | nil => rfl
  | cons f cs =>
    cases o with
    | record ticket report => exact absurd rfl (h ticket report)
    | _ => rfl

theorem held_hear (o : Op I) (r : o.Resp) (cs : List (Frame options I)) :
    ((hear (S := sig I) (I := ledger options) o r cs).map Prod.fst).filterMap Note.held =
      (cs.map Prod.fst).filterMap Note.held := by
  cases cs with
  | nil => rfl
  | cons f cs =>
    obtain ⟨_, h⟩ := tell_noted options f.1 o r
    rw [hear, List.map_cons, List.map_cons, List.filterMap_cons, List.filterMap_cons, h]

/-- A parse reports to the load below it, if it reports at all. -/
def ReportsTo (n m : Note I) : Prop := n.call.ticket = none ∨ n.call.ticket = m.held

/-- The system of the installation, with all that foreign code may do. -/
abbrev busy (engine : Engine I options.markchar) (W : World I) : System (sig I) (Shared I) :=
  installation engine W Foreign TopLevel

theorem guarded_busy : Guarded (busy engine W) (guard options) :=
  guarded (fun _ _ h => h) fun _ h => h

theorem enter_noted (options : MultiSourceOptions) (n : Option (Note I)) (c : Call I) :
    ((ledger options).enter n c).noted = none := by
  cases n <;> cases c <;> rfl

theorem enter_held (options : MultiSourceOptions) (n : Option (Note I)) (c : Call I) :
    ((ledger options).enter n c).held = none := by
  cases n <;> cases c <;> rfl

theorem TopLevel.enter_ticket {c : Call I} (h : TopLevel c) (n : Option (Note I)) :
    ((ledger options).enter n c).call.ticket = none := by
  cases c with
  | parse parser src parseMeta =>
    cases n with
    | none => exact h.2
    | some n => exact h.2
  | nested parser src parseMeta depth => exact absurd h id

theorem stackRule_reportsTo : StackRule (busy engine W) (guard options) (ReportsTo (I := I)) where
  call n c hc := by
    cases c with
    | parse parser src parseMeta => exact absurd hc id
    | nested parser src parseMeta depth => exact .inr hc.1.ticket
  foreign n o c ha hc := by
    cases hc with
    | resolver hc => exact .inl (hc.enter_ticket (some n))
    | processor hc => exact .inl (hc.enter_ticket (some n))
    | source hm => exact .inr ((ha.1.congr hm).ticket)
  op n m o r h := by rwa [ReportsTo, mark_call, tell_held]
  below m m' o r h := by rwa [ReportsTo, tell_call]

/-- One step on the slots: none is touched, or that of one ticket of the thread. -/
inductive Slotwise (s s' : Shared I) (t t' : Running options I) : Prop
  | quiet : s'.slots = s.slots → slotsOf t' = slotsOf t → Slotwise s s' t t'
  | touch (ticket : Str) : ticket ∈ ticketsOf t →
      (∀ x, x ≠ ticket → s'.slots.get x = s.slots.get x ∧
        ∀ report, (x, report) ∈ slotsOf t' ↔ (x, report) ∈ slotsOf t) →
      (∀ report, s'.slots.get ticket = some report ↔ (ticket, report) ∈ slotsOf t') →
      Slotwise s s' t t'

variable {s s' : Shared I}

/-- The load that holds `ticket` gives its slot up. -/
theorem slotwise_free {n : Note I} {cs : List (Frame options I)} {c : Call I} {ticket : Str}
    {p p' : Program I (Except TabnasError Value)} {tr tr' : List (Note I × Event (sig I))}
    (hh : n.held = some ticket) (hu : (ticketsOf (⟨c, n, p, cs, tr⟩ : Running options I)).Nodup)
    (hs : s'.slots = s.slots.remove ticket) :
    Slotwise s s' (⟨c, n, p, cs, tr⟩ : Running options I)
      ⟨c, { n with held := none, noted := none }, p', cs, tr'⟩ := by
  have htickets : ticketsOf (⟨c, n, p, cs, tr⟩ : Running options I) =
      ticket :: ((cs.map Prod.fst).filterMap Note.held ++ tr.filterMap fun e => spent e.2) := by
    rw [ticketsOf, Thread.notes, List.filterMap_cons, hh]
    rfl
  have hslots : slotsOf
      (⟨c, { n with held := none, noted := none }, p', cs, tr'⟩ : Running options I) =
      (cs.map Prod.fst).filterMap Note.slot := by
    rw [slotsOf, Thread.notes, List.filterMap_cons, slot_eq_none rfl]
  rw [htickets] at hu
  refine .touch ticket (htickets ▸ List.mem_cons_self ..) (fun x hx => ⟨?_, fun report => ?_⟩)
    fun report => ?_
  · rw [hs, Entries.get_remove, if_neg hx.symm]
  · rw [hslots, slotsOf, Thread.notes, List.filterMap_cons]
    cases he : n.slot with
    | none => rfl
    | some e =>
      have hk : x ≠ e.1 := by
        rw [slot_eq_some, hh, Option.some.injEq] at he
        rwa [← he.1]
      simp [Prod.ext_iff, hk]
  · rw [hs, Entries.get_remove, if_pos rfl, hslots]
    refine ⟨fun h => absurd h (by simp), fun h => ?_⟩
    exact absurd (List.mem_append_left _ (held_of_mem_slots h)) (List.nodup_cons.mp hu).1

/-- The parse nested in the load that holds `ticket` records its report. -/
theorem slotwise_record {n m : Note I} {k : Except TabnasError Value → Program I _}
    {cs : List (Frame options I)} {c : Call I} {ticket : Str} {report : Report}
    {p p' : Program I (Except TabnasError Value)} {tr tr' : List (Note I × Event (sig I))}
    (hh : m.held = some ticket)
    (hu : (ticketsOf (⟨c, n, p, (m, k) :: cs, tr⟩ : Running options I)).Nodup)
    (hs : s'.slots = s.slots.insert ticket report) :
    Slotwise s s' (⟨c, n, p, (m, k) :: cs, tr⟩ : Running options I)
      ⟨c, n, p', ({ m with noted := some report }, k) :: cs, tr'⟩ := by
  have hslots : slotsOf
      (⟨c, n, p', ({ m with noted := some report }, k) :: cs, tr'⟩ : Running options I) =
      n.slot.toList ++ (ticket, report) :: (cs.map Prod.fst).filterMap Note.slot := by
    have hm : Note.slot { m with noted := some report } = some (ticket, report) :=
      slot_eq_some.mpr ⟨hh, rfl⟩
    rw [slotsOf, Thread.notes, List.map_cons, List.filterMap_cons, List.filterMap_cons, hm]
    cases n.slot <;> rfl
  have hslots₀ : slotsOf (⟨c, n, p, (m, k) :: cs, tr⟩ : Running options I) =
      n.slot.toList ++ (m.slot.toList ++ (cs.map Prod.fst).filterMap Note.slot) := by
    rw [slotsOf, Thread.notes, List.map_cons, List.filterMap_cons, List.filterMap_cons]
    cases n.slot <;> cases m.slot <;> rfl
  have htickets : ticketsOf (⟨c, n, p, (m, k) :: cs, tr⟩ : Running options I) =
      n.held.toList ++ ticket :: ((cs.map Prod.fst).filterMap Note.held ++
        tr.filterMap fun e => spent e.2) := by
    rw [ticketsOf, Thread.notes, List.map_cons, List.filterMap_cons, List.filterMap_cons, hh]
    cases n.held <;> rfl
  -- no other load of the thread holds the ticket
  rw [htickets, List.nodup_append] at hu
  obtain ⟨-, hcons, hdisj⟩ := hu
  have hn : ∀ x, (ticket, x) ∉ n.slot.toList := fun x hx => by
    rw [Option.mem_toList, slot_eq_some] at hx
    exact hdisj ticket (Option.mem_toList.mpr hx.1) ticket (List.mem_cons_self ..) rfl
  have hcs : ∀ x, (ticket, x) ∉ (cs.map Prod.fst).filterMap Note.slot := fun x hx =>
    (List.nodup_cons.mp hcons).1 (List.mem_append_left _ (held_of_mem_slots hx))
  refine .touch ticket ?_ (fun x hx => ⟨?_, fun x' => ?_⟩) fun x => ?_
  · rw [htickets]
    exact List.mem_append_right _ (List.mem_cons_self ..)
  · rw [hs, Entries.get_insert, if_neg hx.symm]
  · have hm : (x, x') ∉ m.slot.toList := fun hm => by
      rw [Option.mem_toList, slot_eq_some, hh, Option.some.injEq] at hm
      exact hx hm.1.symm
    rw [hslots, hslots₀, List.mem_append, List.mem_append, List.mem_append, List.mem_cons]
    simp [hx, hm]
  · rw [hs, Entries.get_insert, if_pos rfl, hslots, List.mem_append, List.mem_cons]
    simp only [hn, hcs, or_false, false_or, Prod.mk.injEq, true_and, Option.some.injEq]
    exact eq_comm

theorem slotwise_of_moves {t t' : Running options I}
    (h : Moves (busy engine W) s t s' t') (ht : Typed (busy engine W) (guard options) t)
    (hstack : t.notes.IsChain ReportsTo) (hbottom : ∀ n ∈ t.notes.getLast?, n.call.ticket = none)
    (hu : (ticketsOf t).Nodup) : Slotwise s s' t t' := by
  cases h with
  | @op _ c n o k cs tr r ho =>
    obtain ⟨ha, -⟩ := (ht.running n (.refl o n)).1
    have hquiet (hrec : ∀ ticket report, o ≠ .record ticket report)
        (hn : ((ledger options).mark n o r).slot = n.slot) :
        slotsOf (⟨c, (ledger options).mark n o r, k r,
          hear (S := sig I) (I := ledger options) o r cs, tr ++ [(n, ⟨o, r⟩)]⟩ :
            Running options I) =
        slotsOf (⟨c, n, .op o k, cs, tr⟩ : Running options I) := by
      rw [slotsOf, slotsOf, Thread.notes, Thread.notes, hear_eq_self hrec, List.filterMap_cons,
        List.filterMap_cons, hn]
    cases ho with
    | record =>
      rename_i ticket report
      cases cs with
      | nil => exact absurd ((hbottom n rfl).symm.trans ha) (by simp)
      | cons f cs =>
        obtain ⟨m, k'⟩ := f
        have hm : m.held = some ticket := by
          rcases (List.isChain_cons_cons.mp hstack).1 with hnone | hm
          · exact absurd (hnone.symm.trans ha) (by simp)
          · exact hm.symm.trans ha
        have htell : (ledger options).tell m (.record ticket report) () =
            { m with noted := some report } := if_pos (by rw [hm]; rfl)
        rw [hear, htell]
        exact slotwise_record hm hu rfl
    | take =>
      rw [hear_eq_self (by simp)]
      exact slotwise_free ha hu rfl
    | discard =>
      rw [hear_eq_self (by simp)]
      exact slotwise_free ha hu rfl
    | ticket => exact .quiet rfl (hquiet (by simp) (by rw [slot_eq_none ha]; rfl))
    | resolve hr => exact .quiet rfl (hquiet (by simp) rfl)
    | process hr => exact .quiet rfl (hquiet (by simp) rfl)
    | spawn hr => exact .quiet rfl (hquiet (by simp) rfl)
    | publish => exact .quiet rfl (hquiet (by simp) rfl)
    | getParser => exact .quiet rfl (hquiet (by simp) rfl)
    | depend wen => exact .quiet rfl (hquiet (by simp) rfl)
  | call => exact .quiet rfl (List.filterMap_cons_none (slot_eq_none
    (enter_noted options (some _) _)))
  | reenter _ =>
    exact .quiet rfl (List.filterMap_cons_none (slot_eq_none
      (enter_noted options (some _) _)))
  | ret =>
    have hfinal : (guard options).final _ := ht.running
    exact .quiet rfl (List.filterMap_cons_none (slot_eq_none hfinal.1)).symm

theorem ticketsOf_eq {n : Note I} {cs : List (Frame options I)} {c : Call I}
    {p : Program I (Except TabnasError Value)} {tr : List (Note I × Event (sig I))} :
    ticketsOf (⟨c, n, p, cs, tr⟩ : Running options I) = n.held.toList ++
      ((cs.map Prod.fst).filterMap Note.held ++ tr.filterMap fun e => spent e.2) := by
  rw [ticketsOf, Thread.notes, List.filterMap_cons]
  cases n.held <;> rfl

/-- A frame just entered holds no ticket. -/
theorem ticketsOf_push {n : Note I} {cs : List (Frame options I)} {c d : Call I}
    {p p' : Program I (Except TabnasError Value)} {k : Except TabnasError Value → Program I _}
    {tr : List (Note I × Event (sig I))} :
    ticketsOf (⟨c, (ledger options).enter (some n) d, p', (n, k) :: cs, tr⟩ : Running options I) =
      ticketsOf (⟨c, n, p, cs, tr⟩ : Running options I) := by
  rw [ticketsOf_eq, enter_held, ticketsOf_eq, List.map_cons, List.filterMap_cons]
  cases n.held <;> rfl

/-- One step mints one ticket at most, and else the thread has no ticket that it had not before. -/
theorem tickets_of_moves {t t' : Running options I} (h : Moves (busy engine W) s t s' t')
    (ht : Typed (busy engine W) (guard options) t) :
    (s'.next = s.next ∧ (ticketsOf t').Subperm (ticketsOf t)) ∨
      (s'.next = s.next + 1 ∧ (ticketsOf t').Subperm (decimal s.next :: ticketsOf t)) := by
  cases h with
  | @op _ c n o k cs tr r ho =>
    obtain ⟨ha, -⟩ := (ht.running n (.refl o n)).1
    have hop : ticketsOf (⟨c, (ledger options).mark n o r, k r,
        hear (S := sig I) (I := ledger options) o r cs, tr ++ [(n, ⟨o, r⟩)]⟩ : Running options I) =
        ((ledger options).mark n o r).held.toList ++ ((cs.map Prod.fst).filterMap Note.held ++
          ((tr.filterMap fun e => spent e.2) ++ (spent ⟨o, r⟩).toList)) := by
      rw [ticketsOf_eq, held_hear, List.filterMap_append, List.filterMap_cons]
      cases spent ⟨o, r⟩ <;> rfl
    rw [hop, ticketsOf_eq]
    have hspend (ticket : Str) (hh : n.held = some ticket) :
        ((cs.map Prod.fst).filterMap Note.held ++
          ((tr.filterMap fun e => spent e.2) ++ [ticket])).Subperm
        (n.held.toList ++ ((cs.map Prod.fst).filterMap Note.held ++
          tr.filterMap fun e => spent e.2)) := by
      rw [hh, ← List.append_assoc]
      exact (List.perm_append_singleton ..).subperm
    have hkeep (hh : ((ledger options).mark n o r).held = n.held) (hs : spent ⟨o, r⟩ = none) :
        (((ledger options).mark n o r).held.toList ++ ((cs.map Prod.fst).filterMap Note.held ++
          ((tr.filterMap fun e => spent e.2) ++ (spent ⟨o, r⟩).toList))).Subperm
        (n.held.toList ++ ((cs.map Prod.fst).filterMap Note.held ++
          tr.filterMap fun e => spent e.2)) := by
      rw [hh, hs, Option.toList_none, List.append_nil]
    cases ho with
    | ticket =>
      refine .inr ⟨rfl, List.Sublist.subperm (.cons_cons _ ?_)⟩
      rw [spent, Option.toList_none, List.append_nil]
      exact List.sublist_append_right ..
    | take => exact .inl ⟨rfl, hspend _ ha⟩
    | discard => exact .inl ⟨rfl, hspend _ ha⟩
    | record => exact .inl ⟨rfl, hkeep rfl rfl⟩
    | resolve hr => exact .inl ⟨rfl, hkeep rfl rfl⟩
    | process hr => exact .inl ⟨rfl, hkeep rfl rfl⟩
    | spawn hr => exact .inl ⟨rfl, hkeep rfl rfl⟩
    | publish => exact .inl ⟨rfl, hkeep rfl rfl⟩
    | getParser => exact .inl ⟨rfl, hkeep rfl rfl⟩
    | depend wen => exact .inl ⟨rfl, hkeep rfl rfl⟩
  | @call c d n k cs tr =>
    refine .inl ⟨rfl, List.Sublist.subperm ?_⟩
    rw [ticketsOf_push]
  | @reenter c d n o k cs tr _ =>
    refine .inl ⟨rfl, List.Sublist.subperm ?_⟩
    rw [ticketsOf_push]
  | @ret c n m a k cs tr =>
    refine .inl ⟨rfl, List.Sublist.subperm ?_⟩
    rw [ticketsOf_eq (n := n)]
    exact List.sublist_append_right ..

end Step

/-! ## All steps -/

/-- What an operation that took a report got. -/
def Taken (e : Note I × Event (sig I)) : Prop :=
  ∀ ticket code r, e.2 = ⟨.take ticket code, r⟩ →
    e.1.held = some ticket ∧ r = reported e.1.noted code

/-- The slots are those of the loads in progress, one each. -/
structure SlotInv (p : Parses options I) : Prop where
  nodup : (p.threads.flatMap ticketsOf).Nodup
  minted : ∀ ticket ∈ p.threads.flatMap ticketsOf, ∃ k < p.shared.next, ticket = decimal k
  slots : ∀ ticket report, p.shared.slots.get ticket = some report ↔
    (ticket, report) ∈ p.threads.flatMap slotsOf
  taken : ∀ t ∈ p.threads, ∀ e ∈ t.trace, Taken (I := I) e

section Inv

variable {s s' : Shared I} {ts₁ ts₂ : List (Running options I)} {t t' : Running options I}

theorem SlotInv.ticket_disjoint (h : SlotInv ⟨s, ts₁ ++ t :: ts₂⟩) {ticket : Str}
    (ht : ticket ∈ ticketsOf t) :
    ticket ∉ ts₁.flatMap ticketsOf ∧ ticket ∉ ts₂.flatMap ticketsOf := by
  have hn := h.nodup
  rw [List.flatMap_append, List.flatMap_cons, List.nodup_append] at hn
  obtain ⟨-, hn, hd⟩ := hn
  refine ⟨fun hm => hd ticket hm ticket (List.mem_append_left _ ht) rfl, fun hm => ?_⟩
  exact (List.nodup_append.mp hn).2.2 ticket ht ticket hm rfl

theorem SlotInv.nodup_ticketsOf (h : SlotInv ⟨s, ts₁ ++ t :: ts₂⟩) : (ticketsOf t).Nodup := by
  have hn := h.nodup
  rw [List.flatMap_append, List.flatMap_cons] at hn
  exact hn.of_append_right.of_append_left

theorem ticket_of_mem_slots {ts : List (Running options I)} {ticket : Str} {report : Report}
    (h : (ticket, report) ∈ ts.flatMap slotsOf) : ticket ∈ ts.flatMap ticketsOf := by
  obtain ⟨u, hu, h⟩ := List.mem_flatMap.mp h
  exact List.mem_flatMap.mpr ⟨u, hu, ticket_of_mem_slotsOf h⟩

/-- The slot of the running load is what it noted. -/
theorem SlotInv.get_held (h : SlotInv ⟨s, ts₁ ++ t :: ts₂⟩) {ticket : Str}
    (ht : t.note.held = some ticket) : s.slots.get ticket = t.note.noted := by
  have hmem : ticket ∈ ticketsOf t :=
    List.mem_append_left _ (List.mem_filterMap.mpr ⟨t.note, List.mem_cons_self .., ht⟩)
  cases hn : t.note.noted with
  | some report =>
    refine (h.slots ticket report).mpr (List.mem_flatMap.mpr ⟨t, by simp, ?_⟩)
    exact mem_slots.mpr ⟨t.note, List.mem_cons_self .., ht, hn⟩
  | none =>
    cases hg : s.slots.get ticket with
    | none => rfl
    | some report =>
      exfalso
      have hs := (h.slots ticket report).mp hg
      rw [List.flatMap_append, List.flatMap_cons, List.mem_append, List.mem_append] at hs
      obtain ⟨h₁, h₂⟩ := h.ticket_disjoint hmem
      rcases hs with hs | hs | hs
      · exact h₁ (ticket_of_mem_slots hs)
      · -- another frame of the thread would hold the ticket too
        have hu := h.nodup_ticketsOf
        rw [ticketsOf, Thread.notes, List.filterMap_cons, ht, List.cons_append,
          List.nodup_cons] at hu
        rw [slotsOf, Thread.notes, List.filterMap_cons_none (slot_eq_none hn)] at hs
        exact hu.1 (List.mem_append_left _ (held_of_mem_slots hs))
      · exact h₂ (ticket_of_mem_slots hs)

theorem SlotInv.slots_step (h : SlotInv ⟨s, ts₁ ++ t :: ts₂⟩) (hs : Slotwise s s' t t')
    (ticket : Str) (report : Report) : s'.slots.get ticket = some report ↔
      (ticket, report) ∈ (ts₁ ++ t' :: ts₂).flatMap slotsOf := by
  have hold := h.slots ticket report
  rw [List.flatMap_append, List.flatMap_cons, List.mem_append, List.mem_append] at hold ⊢
  cases hs with
  | quiet hslots hsame => rw [hslots, hsame, hold]
  | touch x hx hother hself =>
    by_cases he : ticket = x
    · subst he
      obtain ⟨h₁, h₂⟩ := h.ticket_disjoint hx
      rw [hself]
      refine ⟨fun hm => .inr (.inl hm), fun hm => ?_⟩
      rcases hm with hm | hm | hm
      · exact absurd (ticket_of_mem_slots hm) h₁
      · exact hm
      · exact absurd (ticket_of_mem_slots hm) h₂
    · obtain ⟨hget, hmem⟩ := hother ticket he
      rw [hget, hmem, hold]

theorem SlotInv.tickets_step (h : SlotInv ⟨s, ts₁ ++ t :: ts₂⟩)
    (ht : (s'.next = s.next ∧ (ticketsOf t').Subperm (ticketsOf t)) ∨
      (s'.next = s.next + 1 ∧ (ticketsOf t').Subperm (decimal s.next :: ticketsOf t))) :
    ((ts₁ ++ t' :: ts₂).flatMap ticketsOf).Nodup ∧
      ∀ ticket ∈ (ts₁ ++ t' :: ts₂).flatMap ticketsOf, ∃ k < s'.next, ticket = decimal k := by
  have hn := h.nodup
  have hm := h.minted
  rw [List.flatMap_append, List.flatMap_cons] at hn ⊢
  simp only [List.flatMap_append, List.flatMap_cons] at hm
  rcases ht with ⟨hnext, hsub⟩ | ⟨hnext, hsub⟩
  · have hall : (ts₁.flatMap ticketsOf ++ (ticketsOf t' ++ ts₂.flatMap ticketsOf)).Subperm
        (ts₁.flatMap ticketsOf ++ (ticketsOf t ++ ts₂.flatMap ticketsOf)) :=
      (List.Subperm.refl _).append (hsub.append (.refl _))
    exact ⟨nodup_of_subperm hall hn, fun x hx => hnext ▸ hm x (hall.subset hx)⟩
  · have hall : (ts₁.flatMap ticketsOf ++ (ticketsOf t' ++ ts₂.flatMap ticketsOf)).Subperm
        (decimal s.next :: (ts₁.flatMap ticketsOf ++ (ticketsOf t ++ ts₂.flatMap ticketsOf))) :=
      ((List.Subperm.refl _).append (hsub.append (.refl _))).trans List.perm_middle.subperm
    refine ⟨nodup_of_subperm hall (List.nodup_cons.mpr ⟨fun hx => ?_, hn⟩), fun x hx => ?_⟩
    · obtain ⟨k, hk, he⟩ := hm _ hx
      exact hk.ne' (decimal_inj.mp he)
    · rcases List.mem_cons.mp (hall.subset hx) with rfl | hx
      · exact ⟨s.next, by omega, rfl⟩
      · obtain ⟨k, hk, he⟩ := hm x hx
        exact ⟨k, by omega, he⟩

theorem SlotInv.taken_step (h : SlotInv ⟨s, ts₁ ++ t :: ts₂⟩)
    (hm : Moves (busy engine W) s t s' t') (ht : Typed (busy engine W) (guard options) t) :
    ∀ e ∈ t'.trace, Taken (I := I) e := by
  have hold := h.taken t (by simp)
  cases hm with
  | @op _ c n o k cs tr r ho =>
    intro e he
    rcases List.mem_append.mp he with he | he
    · exact hold e he
    · rw [List.mem_singleton.mp he]
      rintro ticket code r' heq
      obtain ⟨rfl, hr⟩ := Sigma.mk.inj heq
      obtain rfl := eq_of_heq hr
      cases ho with
      | take =>
        have hheld : n.held = some ticket := (ht.running n (.refl _ n)).1.1
        refine ⟨hheld, ?_⟩
        have hget : s.slots.get ticket = n.noted := h.get_held hheld
        rw [Shared.take, hget]
  | call => exact hold
  | reenter _ => exact hold
  | ret => exact hold

end Inv

theorem bottom_ticket {s₀ : Shared I} {p : Parses options I}
    (hp : Pool.Reachable (busy engine W) s₀ p) :
    ∀ t ∈ p.threads, ∀ n ∈ t.notes.getLast?, n.call.ticket = none := by
  refine fun t ht => (hp.reached t ht).bottom (P := fun n : Note I => n.call.ticket = none)
    (fun c hc => TopLevel.enter_ticket hc none) (fun n o r hn => ?_) fun n o r hn => ?_
  · rwa [mark_call]
  · rwa [tell_call]

theorem slotInv {p : Parses options I} (hp : Pool.Reachable (busy engine W) Shared.init p) :
    SlotInv p := by
  induction hp with
  | init => exact ⟨List.nodup_nil, fun _ ht => absurd ht List.not_mem_nil,
      fun _ _ => by simp [Shared.init], fun _ ht => absurd ht List.not_mem_nil⟩
  | step hp hs _ ih =>
    have htyped := Pool.ReachableBy.typed guarded_busy hp
    have hstack := fun t ht => stackRule_reportsTo.stacked guarded_busy (hp.reached t ht)
    have hbottom := bottom_ticket hp
    cases hs with
    | @start s ts c hc =>
      have hheld := enter_held options none c
      have htickets : ticketsOf (Thread.start (busy engine W) (ledger options) c) = [] := by
        rw [Thread.start, ticketsOf_eq, hheld]
        rfl
      have hslots : slotsOf (Thread.start (busy engine W) (ledger options) c) = [] :=
        List.filterMap_cons_none (slot_eq_none (enter_noted options none c))
      refine ⟨?_, ?_, fun ticket report => ?_, fun t ht => ?_⟩
      · simpa [htickets] using ih.nodup
      · simpa [htickets] using ih.minted
      · simpa [hslots] using ih.slots ticket report
      · rcases List.mem_append.mp ht with ht | ht
        · exact ih.taken t ht
        · rw [List.mem_singleton.mp ht]
          exact fun _ he => absurd he List.not_mem_nil
    | @run s s' ts₁ ts₂ t t' hm =>
      have htm : t ∈ ts₁ ++ t :: ts₂ := by simp
      obtain ⟨hnodup, hminted⟩ := ih.tickets_step (tickets_of_moves hm (htyped t htm))
      refine ⟨hnodup, hminted, ih.slots_step (slotwise_of_moves hm (htyped t htm) (hstack t htm)
        (hbottom t htm) ih.nodup_ticketsOf), fun u hu => ?_⟩
      rcases mem_replaced hu with rfl | hu
      · exact ih.taken_step hm (htyped t htm)
      · exact ih.taken u hu

/-- In every state of every run of any number of parses: a slot is occupied exactly by a load in
progress, with what the parse nested in that load last recorded. No two loads have one ticket and
no ticket is spent twice, so a load takes only the report its own nested parse recorded. When all
parses have ended there is no slot. -/
theorem report_slots_never_mix (engine : Engine I options.markchar) (W : World I)
    {p : Parses options I}
    (hp : Pool.Reachable (installation engine W Foreign TopLevel) Shared.init p) :
    (∀ ticket report, p.shared.slots.get ticket = some report ↔
      ∃ t ∈ p.threads, (∀ a, ¬ t.Done a) ∧ ∃ n ∈ t.notes,
        n.held = some ticket ∧ n.noted = some report) ∧
    (p.threads.flatMap ticketsOf).Nodup ∧
    (∀ t ∈ p.threads, ∀ n ticket code r, (n, ⟨.take ticket code, r⟩) ∈ t.trace →
      n.held = some ticket ∧ r = reported n.noted code) ∧
    ((∀ t ∈ p.threads, ∃ a, t.Done a) → p.shared.slots = []) := by
  have h := slotInv hp
  have hdone : ∀ t ∈ p.threads, ∀ a, t.Done a → slotsOf t = [] := by
    rintro t ht a ⟨hprog, hcallers⟩
    have hfinal := (Pool.ReachableBy.typed guarded_busy hp t ht).running
    rw [hprog] at hfinal
    rw [slotsOf, Thread.notes, hcallers]
    exact List.filterMap_cons_none (slot_eq_none hfinal.1)
  refine ⟨fun ticket report => ?_, h.nodup, fun t ht n ticket code r he =>
    h.taken t ht _ he ticket code r rfl, fun hall => Entries.eq_nil_of_get fun ticket => ?_⟩
  · rw [h.slots]
    constructor
    · intro hs
      obtain ⟨t, ht, hs⟩ := List.mem_flatMap.mp hs
      exact ⟨t, ht, fun a ha => by simp [hdone t ht a ha] at hs, mem_slots.mp hs⟩
    · rintro ⟨t, ht, -, hs⟩
      exact List.mem_flatMap.mpr ⟨t, ht, mem_slots.mpr hs⟩
  · cases hg : p.shared.slots.get ticket with
    | none => rfl
    | some report =>
      obtain ⟨t, ht, hs⟩ := List.mem_flatMap.mp ((h.slots ticket report).mp hg)
      obtain ⟨a, ha⟩ := hall t ht
      rw [hdone t ht a ha] at hs
      exact absurd hs List.not_mem_nil

/-- A document whose load has failed and not been re-raised yet. -/
def failedLoad : Parses MultiSourceOptions.new Bool :=
  (List.replicate 7 0).foldl (Pool.turn (busy aloneEngine danglingWorld) (answer danglingResolve))
    ⟨Shared.init, [Thread.start (busy aloneEngine danglingWorld) (ledger MultiSourceOptions.new)
      (.parse true "@a".toList .undefined)]⟩

theorem report_slots_never_mix_failedLoad :
    (failedLoad.shared.slots.get "0".toList).map Prod.fst = some NOT_FOUND ∧
      ∃ t ∈ failedLoad.threads, (∀ a, ¬ t.Done a) ∧ ∃ n ∈ t.notes, n.held = some "0".toList := by
  have hslot : (failedLoad.shared.slots.get "0".toList).map Prod.fst = some NOT_FOUND := by
    decide +kernel
  have htop : TopLevel (Call.parse true "@a".toList .undefined) := ⟨rfl, rfl⟩
  have hreach : Pool.Reachable (busy aloneEngine danglingWorld) Shared.init failedLoad :=
    Pool.ReachableBy.turns (handles_answer danglingResolve _) (.step .init (.start htop) trivial)
      (Pool.keeps_trivial _ _)
  refine ⟨hslot, ?_⟩
  obtain ⟨report, hget, -⟩ := Option.map_eq_some_iff.mp hslot
  obtain ⟨t, ht, hrun, n, hn, hheld, -⟩ :=
    ((report_slots_never_mix aloneEngine danglingWorld hreach).1 _ report).mp hget
  exact ⟨t, ht, hrun, n, hn, hheld⟩

end MultiSource
