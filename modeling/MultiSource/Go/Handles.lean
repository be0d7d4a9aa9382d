import MultiSource.Go.Clib
import MultiSource.Lib.History

/-!
# Handles of the C library

The calls of all threads, each taken at its one access to the table, are those of a table without
threads or locks, which gives every parser the next handle. So a handle stands for one parser, and
a call that finds none answers so.
-/

namespace MultiSource.Clib

open Interaction

/-! ## The table -/

/-- What a call does to the table: put the parser at an address under a handle, look a handle up, or
take it out. -/
inductive Commit : Type
  | load (id : Handle) (g : ℕ)
  | look (id : Handle) (g : Option ℕ)
  | free (id : Handle)
  deriving DecidableEq

/-- The table: how many parsers were ever loaded, and those that are. -/
structure Table where
  issued : ℕ
  live : Handle → Option ℕ

namespace Table

def init : Table := ⟨0, fun _ => none⟩

/-- The table answers so: a parser gets the next handle, and a look finds what is there. -/
def Serves (T : Table) : Commit → Prop
  | .load id _ => id = BitVec.ofNat 64 (T.issued + 1)
  | .look id g => g = T.live id
  | .free _ => True

def after (T : Table) : Commit → Table
  | .load id g => ⟨T.issued + 1, Function.update T.live id (some g)⟩
  | .look _ _ => T
  | .free id => ⟨T.issued, Function.update T.live id none⟩

/-- One call after the other. -/
inductive Replays : List Commit → Table → Prop
  | nil : Replays [] init
  | snoc {cs : List Commit} {T : Table} {c : Commit} : Replays cs T → T.Serves c →
      Replays (cs ++ [c]) (T.after c)

/-- The parsers loaded, with the handles they got. -/
def loads (cs : List Commit) : List (Handle × ℕ) :=
  cs.filterMap fun
    | .load id g => some (id, g)
    | _ => none

theorem loads_append (cs cs' : List Commit) : loads (cs ++ cs') = loads cs ++ loads cs' :=
  List.filterMap_append

theorem mem_loads {cs : List Commit} {id : Handle} {g : ℕ} :
    (id, g) ∈ loads cs ↔ .load id g ∈ cs := by
  unfold loads
  rw [List.mem_filterMap]
  constructor
  · rintro ⟨c, hc, h⟩
    cases c with
    | load id' g' =>
      obtain ⟨rfl, rfl⟩ := Prod.mk.inj (Option.some.inj h)
      exact hc
    | _ => cases h
  · exact fun h => ⟨_, h, rfl⟩

/-- The handles are given in turn, from the first on. -/
theorem Replays.handles {cs : List Commit} {T : Table} (h : Replays cs T) :
    (loads cs).map Prod.fst = (List.range T.issued).map fun i => BitVec.ofNat 64 (i + 1) := by
  induction h with
  | nil => rfl
  | @snoc cs T c _ hc ih =>
    rw [loads_append, List.map_append, ih]
    cases c with
    | load id g =>
      obtain rfl := hc
      show _ = (List.range (T.issued + 1)).map _
      rw [List.range_succ, List.map_append]
      rfl
    | _ => exact List.append_nil _

theorem Replays.issued {cs : List Commit} {T : Table} (h : Replays cs T) :
    T.issued = (loads cs).length := by
  have hlen := congrArg List.length h.handles
  simpa using hlen.symm

/-- No handle is given twice, as long as there are enough. -/
theorem Replays.nodup {cs : List Commit} {T : Table} (h : Replays cs T)
    (hfew : (loads cs).length < 2 ^ 64) : ((loads cs).map Prod.fst).Nodup := by
  rw [h.handles, List.nodup_map_iff_inj_on List.nodup_range]
  intro i hi j hj he
  rw [List.mem_range, h.issued] at hi hj
  have hnat := congrArg BitVec.toNat he
  rw [BitVec.toNat_ofNat, BitVec.toNat_ofNat, Nat.mod_eq_of_lt (by omega),
    Nat.mod_eq_of_lt (by omega)] at hnat
  omega

/-- What is in the table was loaded. -/
theorem Replays.loaded {cs : List Commit} {T : Table} (h : Replays cs T) {id : Handle} {g : ℕ}
    (hg : T.live id = some g) : (id, g) ∈ loads cs := by
  induction h with
  | nil => cases hg
  | @snoc cs T c _ _ ih =>
    rw [loads_append, List.mem_append]
    cases c with
    | load id' g' =>
      have hg : Function.update T.live id' (some g') id = some g := hg
      by_cases he : id = id'
      · rw [he, Function.update_self] at hg
        right
        rw [he, Option.some.inj hg]
        exact List.mem_singleton_self _
      · rw [Function.update_of_ne he] at hg
        exact .inl (ih hg)
    | look => exact .inl (ih hg)
    | free id' =>
      have hg : Function.update T.live id' none id = some g := hg
      by_cases he : id = id'
      · rw [he, Function.update_self] at hg
        cases hg
      · rw [Function.update_of_ne he] at hg
        exact .inl (ih hg)

/-- The table as it was at a call. -/
theorem Replays.split {pre post : List Commit} {c : Commit} {T : Table}
    (h : Replays (pre ++ c :: post) T) : ∃ T', Replays pre T' ∧ T'.Serves c := by
  generalize he : pre ++ c :: post = cs at h
  induction h generalizing post with
  | nil => simp at he
  | @snoc cs T d hT hd ih =>
    rcases List.eq_nil_or_concat post with rfl | ⟨post, d', rfl⟩
    · obtain ⟨rfl, hc⟩ := List.append_inj' he rfl
      obtain rfl := List.singleton_inj.mp hc
      exact ⟨T, hT, hd⟩
    · rw [List.concat_eq_append, ← List.cons_append, ← List.append_assoc] at he
      exact ih (List.append_inj' he rfl).1

/-- What a look finds was loaded. -/
theorem Replays.look {cs : List Commit} {T : Table} (h : Replays cs T) {id : Handle} {g : ℕ}
    (hc : .look id (some g) ∈ cs) : (id, g) ∈ loads cs := by
  obtain ⟨pre, post, rfl⟩ := List.append_of_mem hc
  obtain ⟨T', hT', hs⟩ := h.split
  rw [loads_append, List.mem_append]
  exact .inl (hT'.loaded hs.symm)

/-- A handle that is out of the table stays out until it is given again. -/
theorem Replays.out {pre post : List Commit} {id : Handle} {T : Table}
    (h : Replays (pre ++ .free id :: post) T) (hpost : ∀ g, (id, g) ∉ loads post) :
    T.live id = none := by
  generalize he : pre ++ .free id :: post = cs at h
  induction h generalizing post with
  | nil => simp at he
  | @snoc cs T d hT hd ih =>
    rcases List.eq_nil_or_concat post with rfl | ⟨post, d', rfl⟩
    · obtain ⟨rfl, hc⟩ := List.append_inj' he rfl
      obtain rfl := List.singleton_inj.mp hc
      exact Function.update_self ..
    · rw [List.concat_eq_append] at he hpost
      rw [← List.cons_append, ← List.append_assoc] at he
      obtain ⟨hcs, hd'⟩ := List.append_inj' he rfl
      obtain rfl := List.singleton_inj.mp hd'
      have hlive := ih (fun g hg => hpost g (by
        rw [loads_append, List.mem_append]
        exact .inl hg)) hcs
      cases d' with
      | load id' g =>
        have hne : id ≠ id' := fun he => hpost g (by
          rw [loads_append, List.mem_append, he]
          exact .inr (List.mem_singleton_self _))
        exact (Function.update_of_ne hne ..).trans hlive
      | look => exact hlive
      | free id' =>
        show Function.update T.live id' none id = none
        by_cases he : id = id'
        · rw [he, Function.update_self]
        · rw [Function.update_of_ne he]
          exact hlive

end Table

namespace Host

variable {host : Host}

/-- The access of an operation to the table. -/
def commit : Event host.sig → Option Commit
  | ⟨.store id g, _⟩ => some (.load id g)
  | ⟨.find id, g⟩ => some (.look id g)
  | ⟨.delete id, _⟩ => some (.free id)
  | _ => none

/-! ## The points of a call -/

/-- The locks held where the table is written, where it is read, and where a parser runs. -/
abbrev writing : Held Lock := Function.update Held.none .reg (some .exclusive)

abbrev reading : Held Lock := Function.update Held.none .reg (some .shared)

abbrev running (g : ℕ) : Held Lock := Function.update Held.none (.mu g) (some .exclusive)

section Events

variable (host)

/-- The events of a load up to its lock. -/
abbrev built (opts : Str) (p : host.Tabnas) : List (Event host.sig) :=
  [⟨.newParser opts, .returned p⟩, ⟨.lock .reg .exclusive, ()⟩]

/-- Its events until it has made the parser. -/
abbrev made (opts : Str) (p : host.Tabnas) (next id : Handle) (g : ℕ) : List (Event host.sig) :=
  host.built opts p ++ [⟨.getNext, next⟩, ⟨.setNext (next + 1), ()⟩, ⟨.getNext, id⟩, ⟨.alloc p, g⟩]

/-- The events of a parse until it has looked. -/
abbrev looked (id : Handle) (g : Option ℕ) : List (Event host.sig) :=
  [⟨.lock .reg .shared, ()⟩, ⟨.find id, g⟩]

end Events

/-- How far a call is: the locks it holds and its events so far. Where `s` is the state and `K`
parsers were loaded, the point says what is known of them. -/
inductive At (s : host.Shared) (K : ℕ) : Call → Held Lock → List (Event host.sig) → Prop
  | start (c : Call) : At s K c Held.none []
  | asked (opts : Str) : At s K (.tabnas_grammar (some opts)) Held.none
      [⟨.newParser opts, host.newParser opts⟩]
  | locked {opts : Str} {p : host.Tabnas} : host.newParser opts = .returned p →
      s.nextID = BitVec.ofNat 64 K → At s K (.tabnas_grammar (some opts)) writing
      (host.built opts p)
  | read {opts : Str} {p : host.Tabnas} : host.newParser opts = .returned p →
      s.nextID = BitVec.ofNat 64 K → At s K (.tabnas_grammar (some opts)) writing
      (host.built opts p ++ [⟨.getNext, s.nextID⟩])
  | counted {opts : Str} {p : host.Tabnas} {next : Handle} : host.newParser opts = .returned p →
      s.nextID = BitVec.ofNat 64 (K + 1) → At s K (.tabnas_grammar (some opts)) writing
      (host.built opts p ++ [⟨.getNext, next⟩, ⟨.setNext (next + 1), ()⟩])
  | named {opts : Str} {p : host.Tabnas} {next id : Handle} : host.newParser opts = .returned p →
      s.nextID = BitVec.ofNat 64 (K + 1) → id = s.nextID →
      At s K (.tabnas_grammar (some opts)) writing
      (host.built opts p ++ [⟨.getNext, next⟩, ⟨.setNext (next + 1), ()⟩, ⟨.getNext, id⟩])
  | made {opts : Str} {p : host.Tabnas} {next id : Handle} {g : ℕ} :
      host.newParser opts = .returned p → s.nextID = BitVec.ofNat 64 (K + 1) → id = s.nextID →
      s.instances[g]? = some p →
      At s K (.tabnas_grammar (some opts)) writing (host.made opts p next id g)
  | stored {opts : Str} {p : host.Tabnas} {next id : Handle} {g : ℕ} :
      host.newParser opts = .returned p → s.nextID = BitVec.ofNat 64 K →
      s.instances[g]? = some p → At s K (.tabnas_grammar (some opts)) writing
      (host.made opts p next id g ++ [⟨.store id g, ()⟩])
  | loaded {opts : Str} {p : host.Tabnas} {next id : Handle} {g : ℕ} :
      host.newParser opts = .returned p → s.instances[g]? = some p →
      At s K (.tabnas_grammar (some opts)) Held.none
      (host.made opts p next id g ++ [⟨.store id g, ()⟩, ⟨.unlock .reg .exclusive, ()⟩])
  | looking (id : Handle) (src : Str) : At s K (.tabnas_parse id (some src)) reading
      [⟨.lock .reg .shared, ()⟩]
  | looked {id : Handle} {src : Str} {g : Option ℕ} :
      (∀ a ∈ g, ∃ p, s.instances[a]? = some p) →
      At s K (.tabnas_parse id (some src)) reading (host.looked id g)
  | left {id : Handle} {src : Str} {g : Option ℕ} : (∀ a ∈ g, ∃ p, s.instances[a]? = some p) →
      At s K (.tabnas_parse id (some src)) Held.none
      (host.looked id g ++ [⟨.unlock .reg .shared, ()⟩])
  | entered {id : Handle} {src : Str} {g : ℕ} {p : host.Tabnas} : s.instances[g]? = some p →
      At s K (.tabnas_parse id (some src)) (running g)
      (host.looked id (some g) ++ [⟨.unlock .reg .shared, ()⟩, ⟨.lock (.mu g) .exclusive, ()⟩])
  | parsed {id : Handle} {src : Str} {g : ℕ} {p : host.Tabnas} {r : Outcome host.Err host.Value} :
      s.instances[g]? = some p → host.parse p src r →
      At s K (.tabnas_parse id (some src)) (running g)
      (host.looked id (some g) ++ [⟨.unlock .reg .shared, ()⟩, ⟨.lock (.mu g) .exclusive, ()⟩,
        ⟨.parse g src, r⟩])
  | answered {id : Handle} {src : Str} {g : ℕ} {p : host.Tabnas}
      {r : Outcome host.Err host.Value} : s.instances[g]? = some p → host.parse p src r →
      At s K (.tabnas_parse id (some src)) Held.none
      (host.looked id (some g) ++ [⟨.unlock .reg .shared, ()⟩, ⟨.lock (.mu g) .exclusive, ()⟩,
        ⟨.parse g src, r⟩, ⟨.unlock (.mu g) .exclusive, ()⟩])
  | freeing (id : Handle) : s.nextID = BitVec.ofNat 64 K →
      At s K (.tabnas_grammar_free id) writing [⟨.lock .reg .exclusive, ()⟩]
  | deleted (id : Handle) : s.nextID = BitVec.ofNat 64 K →
      At s K (.tabnas_grammar_free id) writing
      [⟨.lock .reg .exclusive, ()⟩, ⟨.delete id, ()⟩]
  | freed (id : Handle) : At s K (.tabnas_grammar_free id) Held.none
      [⟨.lock .reg .exclusive, ()⟩, ⟨.delete id, ()⟩, ⟨.unlock .reg .exclusive, ()⟩]

/-- What is known at a point stays known while others move: parsers stay where they are, and the
counters are not touched under the lock of another. -/
theorem At.mono {s s' : host.Shared} {K K' : ℕ} {c : Call} {n : Held Lock}
    {es : List (Event host.sig)} (h : At s K c n es)
    (hinstances : ∀ (g : ℕ) p, s.instances[g]? = some p → s'.instances[g]? = some p)
    (hreg : n .reg = some .exclusive → s'.nextID = s.nextID ∧ K' = K) : At s' K' c n es := by
  have hwriting : writing .reg = some .exclusive := held_update ..
  cases h with
  | start c => exact .start c
  | asked opts => exact .asked opts
  | locked hp hn =>
    obtain ⟨hnext, rfl⟩ := hreg hwriting
    exact .locked hp (hnext.trans hn)
  | read hp hn =>
    obtain ⟨hnext, rfl⟩ := hreg hwriting
    rw [← hnext]
    exact .read hp (hnext.trans hn)
  | counted hp hn =>
    obtain ⟨hnext, rfl⟩ := hreg hwriting
    exact .counted hp (hnext.trans hn)
  | named hp hn hid =>
    obtain ⟨hnext, rfl⟩ := hreg hwriting
    exact .named hp (hnext.trans hn) (hid.trans hnext.symm)
  | made hp hn hid hg =>
    obtain ⟨hnext, rfl⟩ := hreg hwriting
    exact .made hp (hnext.trans hn) (hid.trans hnext.symm) (hinstances _ _ hg)
  | stored hp hn hg =>
    obtain ⟨hnext, rfl⟩ := hreg hwriting
    exact .stored hp (hnext.trans hn) (hinstances _ _ hg)
  | loaded hp hg => exact .loaded hp (hinstances _ _ hg)
  | looking id src => exact .looking id src
  | looked hg => exact .looked fun a ha => (hg a ha).imp fun p => hinstances a p
  | left hg => exact .left fun a ha => (hg a ha).imp fun p => hinstances a p
  | entered hg => exact .entered (hinstances _ _ hg)
  | parsed hg hr => exact .parsed (hinstances _ _ hg) hr
  | answered hg hr => exact .answered (hinstances _ _ hg) hr
  | freeing id hn =>
    obtain ⟨hnext, rfl⟩ := hreg hwriting
    exact .freeing id (hnext.trans hn)
  | deleted id hn =>
    obtain ⟨hnext, rfl⟩ := hreg hwriting
    exact .deleted id (hnext.trans hn)
  | freed id => exact .freed id

theorem At.given {s : host.Shared} {K : ℕ} {c : Call} {es : List (Event host.sig)}
    (h : At s K c Held.none es) (l : Lock) (m : Mode) :
    At s K c (Held.after (Function.update Held.none l (some m)) (.give l m)) es := by
  have hnone : Held.after (Function.update Held.none l (some m)) (.give l m) = Held.none :=
    update_none l (some m)
  rwa [hnone]

/-- How many parsers an operation loads. -/
def loads : host.Op → ℕ
  | .store .. => 1
  | _ => 0

/-- What a call does at its operation `o`: it stores a parser that was made under the next handle,
where it gives the lock of the table back the counter is that of the parsers loaded, and it parses
on a parser that there is. -/
structure Keeps (s : host.Shared) (K : ℕ) (o : host.Op) : Prop where
  store : ∀ id g, o = .store id g →
    id = BitVec.ofNat 64 (K + 1) ∧ ∃ p, s.instances[g]? = some p
  unlock : o = .unlock .reg .exclusive → s.nextID = BitVec.ofNat 64 K
  parse : ∀ g src, o = .parse g src → ∃ p, s.instances[g]? = some p

/-- One step of a call: it comes to its next point. -/
theorem At.step {s : host.Shared} {K : ℕ} {c : Call} {n : Held Lock}
    {es : List (Event host.sig)} {o : host.Op} {k : o.Resp → host.Program (Doc Handle)}
    (h : At s K c n es) (hk : (host.body c).Follows es (.op o k))
    (hlive : ∀ id, ∀ a ∈ s.loaded id, ∃ p, s.instances[a]? = some p) :
    Keeps s K o ∧ ∀ (r : o.Resp) (s' : host.Shared), host.Handles s o r s' →
      (o = .lock .reg .exclusive → s.nextID = BitVec.ofNat 64 K) →
      At s' (K + loads o) c (n.after (host.kind o)) (es ++ [⟨o, r⟩]) := by
  cases h with
  | start c =>
    cases c with
    | tabnas_grammar opts =>
      cases opts with
      | none => cases hk
      | some opts =>
        obtain rfl : o = .newParser opts := hk.head_eq rfl
        refine ⟨⟨nofun, nofun, nofun⟩, fun r s' ho _ => ?_⟩
        cases ho
        exact .asked opts
    | tabnas_parse id src =>
      cases src with
      | none => cases hk
      | some src =>
        obtain rfl : o = .lock .reg .shared := hk.head_eq rfl
        exact ⟨⟨nofun, nofun, nofun⟩, fun _ _ _ _ => .looking id src⟩
    | tabnas_grammar_free id =>
      obtain rfl : o = .lock .reg .exclusive := hk.head_eq rfl
      refine ⟨⟨nofun, nofun, nofun⟩, fun r s' ho hfree => ?_⟩
      cases ho
      exact .freeing id (hfree rfl)
  | asked opts =>
    have hk := follows_op.mp hk
    cases hp : host.newParser opts with
    | failed err =>
      rw [hp] at hk
      cases hk
    | panicked text =>
      rw [hp] at hk
      cases hk
    | returned p =>
      rw [hp] at hk
      obtain rfl : o = .lock .reg .exclusive := hk.head_eq rfl
      refine ⟨⟨nofun, nofun, nofun⟩, fun r s' ho hfree => ?_⟩
      cases ho
      exact .locked hp (hfree rfl)
  | locked hp hn =>
    have hk := follows_op.mp (follows_op.mp hk)
    obtain rfl : o = .getNext := hk.head_eq rfl
    refine ⟨⟨nofun, nofun, nofun⟩, fun r s' ho _ => ?_⟩
    cases ho
    exact .read hp hn
  | read hp hn =>
    have hk := follows_op.mp (follows_op.mp (follows_op.mp hk))
    obtain rfl : o = .setNext (s.nextID + 1) := hk.head_eq rfl
    refine ⟨⟨nofun, nofun, nofun⟩, fun r s' ho _ => ?_⟩
    cases ho
    refine .counted hp ?_
    show s.nextID + 1 = BitVec.ofNat 64 (K + 1)
    rw [hn, BitVec.ofNat_add]
    rfl
  | @counted opts p next hp hn =>
    have hk := follows_op.mp (follows_op.mp (follows_op.mp (follows_op.mp hk)))
    obtain rfl : o = .getNext := hk.head_eq rfl
    refine ⟨⟨nofun, nofun, nofun⟩, fun r s' ho _ => ?_⟩
    cases ho
    exact .named hp hn rfl
  | @named opts p next id hp hn hid =>
    have hk := follows_op.mp (follows_op.mp (follows_op.mp (follows_op.mp (follows_op.mp hk))))
    obtain rfl : o = .alloc p := hk.head_eq rfl
    refine ⟨⟨nofun, nofun, nofun⟩, fun r s' ho _ => ?_⟩
    cases ho
    exact .made hp hn hid (by simp)
  | @made opts p next id g hp hn hid hg =>
    have hk := follows_op.mp (follows_op.mp (follows_op.mp (follows_op.mp (follows_op.mp
      (follows_op.mp hk)))))
    obtain rfl : o = .store id g := hk.head_eq rfl
    refine ⟨⟨fun _ _ h => ?_, nofun, nofun⟩, fun r s' ho _ => ?_⟩
    · cases h
      exact ⟨hid.trans hn, p, hg⟩
    · cases ho
      exact .stored hp hn hg
  | @stored opts p next id g hp hn hg =>
    have hk := follows_op.mp (follows_op.mp (follows_op.mp (follows_op.mp (follows_op.mp
      (follows_op.mp (follows_op.mp hk))))))
    obtain rfl : o = .unlock .reg .exclusive := hk.head_eq rfl
    refine ⟨⟨nofun, fun _ => hn, nofun⟩, fun r s' ho _ => ?_⟩
    cases ho
    refine At.given (.loaded hp ?_) .reg .exclusive
    exact hg
  | loaded hp hg =>
    have hk := follows_op.mp (follows_op.mp (follows_op.mp (follows_op.mp (follows_op.mp
      (follows_op.mp (follows_op.mp (follows_op.mp hk)))))))
    cases hk
  | looking id src =>
    have hk := follows_op.mp hk
    obtain rfl : o = .find id := hk.head_eq rfl
    refine ⟨⟨nofun, nofun, nofun⟩, fun r s' ho _ => ?_⟩
    cases ho
    exact .looked fun a ha => hlive id a ha
  | looked hg =>
    have hk := follows_op.mp (follows_op.mp hk)
    obtain rfl : o = .unlock .reg .shared := hk.head_eq rfl
    refine ⟨⟨nofun, nofun, nofun⟩, fun r s' ho _ => ?_⟩
    cases ho
    refine At.given (.left ?_) .reg .shared
    exact hg
  | @left id src g hg =>
    have hk := follows_op.mp (follows_op.mp (follows_op.mp hk))
    cases g with
    | none => cases hk
    | some g =>
      obtain ⟨p, hp⟩ := hg g rfl
      obtain rfl : o = .lock (.mu g) .exclusive := hk.head_eq rfl
      refine ⟨⟨nofun, nofun, nofun⟩, fun r s' ho _ => ?_⟩
      cases ho
      exact .entered hp
  | @entered id src g p hg =>
    have hk := follows_op.mp (follows_op.mp (follows_op.mp (follows_op.mp hk)))
    obtain rfl : o = .parse g src := hk.head_eq rfl
    refine ⟨⟨nofun, nofun, fun _ _ h => ?_⟩, fun r s' ho _ => ?_⟩
    · cases h
      exact ⟨p, hg⟩
    · cases ho with
      | parse hg' hr => exact .parsed hg' hr
  | @parsed id src g p r hg hr =>
    have hk := follows_op.mp (follows_op.mp (follows_op.mp (follows_op.mp (follows_op.mp hk))))
    obtain rfl : o = .unlock (.mu g) .exclusive := hk.head_eq rfl
    refine ⟨⟨nofun, nofun, nofun⟩, fun r s' ho _ => ?_⟩
    cases ho
    refine At.given (.answered ?_ hr) (.mu g) .exclusive
    exact hg
  | @answered id src g p r hg hr =>
    have hk := follows_op.mp (follows_op.mp (follows_op.mp (follows_op.mp (follows_op.mp
      (follows_op.mp hk)))))
    cases hk
  | freeing id hn =>
    have hk := follows_op.mp hk
    obtain rfl : o = .delete id := hk.head_eq rfl
    refine ⟨⟨nofun, nofun, nofun⟩, fun r s' ho _ => ?_⟩
    cases ho
    exact .deleted id hn
  | deleted id hn =>
    have hk := follows_op.mp (follows_op.mp hk)
    obtain rfl : o = .unlock .reg .exclusive := hk.head_eq rfl
    refine ⟨⟨nofun, fun _ => hn, nofun⟩, fun r s' ho _ => ?_⟩
    exact At.given (.freed id) .reg .exclusive
  | freed id =>
    have hk := follows_op.mp (follows_op.mp (follows_op.mp hk))
    cases hk

/-! ## Every run is one of the table -/

theorem Handles.instances {s s' : host.Shared} {o : host.Op} {r : o.Resp}
    (h : host.Handles s o r s') {g : ℕ} {p : host.Tabnas} (hg : s.instances[g]? = some p) :
    s'.instances[g]? = some p := by
  cases h with
  | alloc _ q => exact List.getElem?_append_left (List.getElem?_eq_some_iff.mp hg).1 ▸ hg
  | _ => exact hg

/-- Only what is done under the lock of the table for writing changes it. -/
theorem Handles.table {s s' : host.Shared} {o : host.Op} {r : o.Resp}
    (h : host.Handles s o r s') (ho : host.kind o ≠ .touch .reg .exclusive) :
    s'.nextID = s.nextID ∧ s'.loaded = s.loaded ∧ loads o = 0 := by
  cases h with
  | setNext => exact absurd rfl ho
  | store => exact absurd rfl ho
  | delete => exact absurd rfl ho
  | _ => exact ⟨rfl, rfl, rfl⟩

/-- The table takes the access of an operation, and has what the map then has. -/
theorem replays_handles {cs : List Commit} {T : Table} {s s' : host.Shared} {o : host.Op}
    {r : o.Resp} (hT : Table.Replays cs T) (hlive : T.live = s.loaded) (ho : host.Handles s o r s')
    (hk : Keeps s T.issued o) : ∃ T', Table.Replays (cs ++ (commit ⟨o, r⟩).toList) T' ∧
      T'.live = s'.loaded ∧ T'.issued = T.issued + loads o := by
  have hsame (hc : commit ⟨o, r⟩ = none) (hs : s'.loaded = s.loaded) (hl : loads o = 0) :
      ∃ T', Table.Replays (cs ++ (commit ⟨o, r⟩).toList) T' ∧
        T'.live = s'.loaded ∧ T'.issued = T.issued + loads o := by
    refine ⟨T, ?_, hlive.trans hs.symm, by rw [hl, Nat.add_zero]⟩
    rw [hc, Option.toList_none, List.append_nil]
    exact hT
  cases ho with
  | store _ id g =>
    refine ⟨_, hT.snoc (c := .load id g) (hk.store id g rfl).1, ?_, rfl⟩
    show Function.update T.live id (some g) = _
    rw [hlive]
  | find _ id => exact ⟨_, hT.snoc (c := .look id _) (congrFun hlive.symm id), hlive, rfl⟩
  | delete _ id =>
    refine ⟨_, hT.snoc (c := .free id) trivial, ?_, rfl⟩
    show Function.update T.live id none = _
    rw [hlive]
  | _ => exact hsame rfl rfl rfl

/-- What holds in every state: the accesses `cs` so far are those of the table `T`, which is the
map; a parser is at each address in it; the counter is that of the table where nobody writes; and
every thread is at a point of its call. -/
structure Inv (cs : List Commit) (p : host.Threads) (T : Table) : Prop where
  replays : Table.Replays cs T
  live : T.live = p.shared.loaded
  made : ∀ id, ∀ a ∈ p.shared.loaded id, ∃ q, p.shared.instances[a]? = some q
  counted : (p.shared.locks .reg).writer = false → p.shared.nextID = BitVec.ofNat 64 T.issued
  points : ∀ t ∈ p.threads, At p.shared T.issued t.root t.note t.events

theorem plain_body (c : Call) : (host.body c).Plain := by
  cases c with
  | tabnas_grammar opts =>
    cases opts with
    | none => exact trivial
    | some opts =>
      intro r
      cases r with
      | returned p => exact fun _ _ _ _ _ _ _ => trivial
      | _ => exact trivial
  | tabnas_parse id src =>
    cases src with
    | none => exact trivial
    | some src =>
      intro _ g _
      cases g with
      | none => exact trivial
      | some g => exact fun _ _ _ => trivial
  | tabnas_grammar_free id => exact fun _ _ _ => trivial

/-- What an operation needs of the counter, which is that of the table where nobody writes. -/
theorem Handles.free {s s' : host.Shared} {o : host.Op} {r : o.Resp} {K : ℕ}
    (h : host.Handles s o r s')
    (hcounted : (s.locks .reg).writer = false → s.nextID = BitVec.ofNat 64 K)
    (ho : o = .lock .reg .exclusive) : s.nextID = BitVec.ofNat 64 K := by
  subst ho
  cases h with
  | lock h =>
    cases h with
    | takeExclusive h => exact hcounted (by rw [h])

theorem kind_unlock {o : host.Op} (h : host.kind o = .give .reg .exclusive) :
    o = .unlock .reg .exclusive := by
  cases o with
  | unlock l m =>
    obtain ⟨rfl, rfl⟩ := LockOp.give.inj h
    rfl
  | _ => cases h

/-- There is a parser at each address that the map then has. -/
theorem Handles.made {s s' : host.Shared} {o : host.Op} {r : o.Resp} {K : ℕ}
    (h : host.Handles s o r s') (hk : Keeps s K o)
    (hmade : ∀ id, ∀ a ∈ s.loaded id, ∃ q, s.instances[a]? = some q) :
    ∀ id, ∀ a ∈ s'.loaded id, ∃ q, s'.instances[a]? = some q := by
  have hsame (hs : s'.loaded = s.loaded) :
      ∀ id, ∀ a ∈ s'.loaded id, ∃ q, s'.instances[a]? = some q := by
    intro id a ha
    rw [hs] at ha
    exact (hmade id a ha).imp fun _ => h.instances
  cases h with
  | store _ id g =>
    intro id' a (ha : Function.update s.loaded id (some g) id' = some a)
    by_cases he : id' = id
    · rw [he, Function.update_self] at ha
      exact Option.some.inj ha ▸ (hk.store id g rfl).2
    · rw [Function.update_of_ne he] at ha
      exact hmade id' a ha
  | delete _ id =>
    intro id' a (ha : Function.update s.loaded id none id' = some a)
    by_cases he : id' = id
    · rw [he, Function.update_self] at ha
      cases ha
    · rw [Function.update_of_ne he] at ha
      exact hmade id' a ha
  | _ => exact hsame rfl

/-- A step of a thread keeps what holds in every state. -/
theorem Inv.run {cs : List Commit} {s s' : host.Shared}
    {ts₁ ts₂ : List host.Running}
    {t t' : host.Running} {T : Table}
    {made : List (Event host.sig)}
    (hp : Pool.Reachable host.clib (Shared.init host) ⟨s, ts₁ ++ t :: ts₂⟩)
    (h : Inv cs ⟨s, ts₁ ++ t :: ts₂⟩ T) (hm : Moves host.clib s t s' t')
    (hmade : t'.events = t.events ++ made) :
    ∃ T', Inv (cs ++ made.filterMap commit) ⟨s', ts₁ ++ t' :: ts₂⟩ T' := by
  have hmem : t ∈ ts₁ ++ t :: ts₂ := List.mem_append_right _ (List.mem_cons_self ..)
  obtain ⟨hcallers, hfollows⟩ := (hp.reached t hmem).follows (fun _ _ h => h) plain_body
  have hpoint := h.points t hmem
  cases hm with
  | @op _ c n o k callers tr r ho =>
    obtain rfl : made = [⟨o, r⟩] := by
      simpa [Thread.events] using hmade.symm
    have hallows : n.Allows flat (host.kind o) :=
      ((hp.typed guarded _ hmem).running n (.refl o n)).1.1
    have htally := hp.tallied guarded host.locked fun _ => rfl
    have halone := hp.alone guarded host.locked fun _ => rfl
    have hwriting (hκ : host.kind o = .touch .reg .exclusive) : n .reg = some .exclusive := by
      rw [hκ] at hallows
      exact hallows
    obtain ⟨hkeeps, hstep⟩ := hpoint.step hfollows h.made
    have hpoint' := hstep r s' ho (ho.free h.counted)
    obtain ⟨T', hreplays, hlive, hissued⟩ := replays_handles h.replays h.live ho hkeeps
    have hother {u : host.Running} (hu : u ∈ ts₁ ++ ts₂)
        (hn : n .reg = some .exclusive → u.note .reg = none) :
        At s' T'.issued u.root u.note u.events := by
      refine (h.points u ?_).mono (fun _ _ => ho.instances) fun hw => ?_
      · exact (List.mem_append.mp hu).elim (List.mem_append_left _)
          fun hu => List.mem_append_right _ (List.mem_cons_of_mem _ hu)
      · have hκ : host.kind o ≠ .touch .reg .exclusive := fun hκ => by
          cases hw.symm.trans (hn (hwriting hκ))
        obtain ⟨hnext, -, hloads⟩ := ho.table hκ
        exact ⟨hnext, by rw [hissued, hloads, Nat.add_zero]⟩
    refine ⟨T', ?_, hlive, ho.made hkeeps h.made, fun hw => ?_, fun u hu => ?_⟩
    · rw [List.filterMap_cons, List.filterMap_nil]
      cases hc : commit ⟨o, r⟩ <;> simpa [hc] using hreplays
    · rcases (host.locked _ _ _ _ ho).writer hw with hfree | hunlock
      · have hκ : host.kind o ≠ .touch .reg .exclusive := fun hκ => by
          have hnote : n ∈ (⟨s, ts₁ ++ ⟨c, n, .op o k, callers, tr⟩ :: ts₂⟩ : host.Threads).notes :=
            List.mem_flatMap.mpr ⟨_, hmem, List.mem_cons_self ..⟩
          cases hfree.symm.trans (htally.writer hnote (hwriting hκ))
        obtain ⟨hnext, -, hloads⟩ := ho.table hκ
        rw [hissued, hloads, Nat.add_zero]
        exact hnext.trans (h.counted hfree)
      · obtain ⟨hnext, -, hloads⟩ := ho.table fun hκ => by cases hunlock.symm.trans hκ
        rw [hissued, hloads, Nat.add_zero]
        exact hnext.trans (hkeeps.unlock (kind_unlock hunlock))
    · rw [List.pairwise_append, List.pairwise_cons] at halone
      obtain ⟨-, ⟨hright, -⟩, hleft⟩ := halone
      rcases List.mem_append.mp hu with hu | hu
      · exact hother (List.mem_append_left _ hu) fun hn =>
          (hleft u hu _ (List.mem_cons_self ..) _ u.note_mem_notes _ (List.mem_cons_self ..) _).2 hn
      · rcases List.mem_cons.mp hu with rfl | hu
        · have hevents : (⟨c, (holding host.kind).mark n o r, k r, hear o r callers,
              tr ++ [(n, ⟨o, r⟩)]⟩ : host.Running).events =
              Thread.events ⟨c, n, .op o k, callers, tr⟩ ++ [⟨o, r⟩] := by
            simp [Thread.events]
          rw [hevents, hissued]
          exact hpoint'
        · exact hother (List.mem_append_right _ hu) fun hn =>
            (hright u hu _ (List.mem_cons_self ..) _ u.note_mem_notes _).1 hn
  | call => exact (hfollows.plain (plain_body _)).elim
  | reenter hd => exact absurd hd id
  | ret => cases hcallers

/-- In every state of every run the accesses so far are those of a table. -/
theorem exists_inv {es : List (ℕ × Event host.sig)} {p : host.Threads}
    (h : Pool.History host.clib (Shared.init host) es p) :
    ∃ T, Inv ((es.map Prod.snd).filterMap commit) p T := by
  induction h with
  | init =>
    exact ⟨.init, .nil, rfl, fun _ _ h => (by cases h), fun _ => rfl,
      fun _ h => absurd h List.not_mem_nil⟩
  | @start es s ts c _ _ ih =>
    obtain ⟨T, h⟩ := ih
    refine ⟨T, h.replays, h.live, h.made, h.counted, fun t ht => ?_⟩
    rcases List.mem_append.mp ht with ht | ht
    · exact h.points t ht
    · rw [List.mem_singleton.mp ht]
      exact .start c
  | @run es s s' ts₁ ts₂ t t' made hp hm hmade ih =>
    obtain ⟨T, h⟩ := ih
    have hsnd : (made.map (Prod.mk ts₁.length)).map Prod.snd = made := by
      rw [List.map_map]
      exact List.map_id made
    rw [List.map_append, hsnd, List.filterMap_append]
    exact h.run hp.reachable hm hmade

/-- A call that reaches the table does so once. It answers by what the table did, and a parse
answers what the parser at the address found came to. -/
inductive Served (s : host.Shared) : Call → List Commit → Doc Handle → Prop
  | noOptions : Served s (.tabnas_grammar none) []
      (.fail "usage".toList "options pointer or length is invalid".toList)
  | noSource (id : Handle) : Served s (.tabnas_parse id none) []
      (.fail "usage".toList "source pointer or length is invalid".toList)
  | refused {opts : Str} {err : Failure host.Err} :
      (host.newParser opts).contained = .error err → Served s (.tabnas_grammar (some opts)) []
      (.fail "grammar".toList (firstLine (host.errorText err)))
  | loaded {opts : Str} {p : host.Tabnas} {id : Handle} {g : ℕ} :
      host.newParser opts = .returned p → s.instances[g]? = some p →
      Served s (.tabnas_grammar (some opts)) [.load id g] (.handle id)
  | unknown (id : Handle) (src : Str) : Served s (.tabnas_parse id (some src)) [.look id none]
      (.fail "handle".toList "no parser is loaded under that handle".toList)
  | parsed {id : Handle} {src : Str} {g : ℕ} {p : host.Tabnas}
      {r : Outcome host.Err host.Value} : s.instances[g]? = some p → host.parse p src r →
      Served s (.tabnas_parse id (some src)) [.look id (some g)] (host.conclude r.contained)
  | freed (id : Handle) : Served s (.tabnas_grammar_free id) [.free id] .void

theorem At.served {s : host.Shared} {K : ℕ} {c : Call} {n : Held Lock}
    {es : List (Event host.sig)} {a : Doc Handle} (h : At s K c n es)
    (hk : (host.body c).Follows es (.ret a)) : Served s c (es.filterMap commit) a := by
  cases h with
  | start c =>
    have hk := follows_nil.mp hk
    cases c with
    | tabnas_grammar opts =>
      cases opts with
      | none =>
        obtain rfl := Prog.ret.inj hk
        exact .noOptions
      | some opts => cases hk
    | tabnas_parse id src =>
      cases src with
      | none =>
        obtain rfl := Prog.ret.inj hk
        exact .noSource id
      | some src => cases hk
    | tabnas_grammar_free id => cases hk
  | asked opts =>
    have hk := follows_nil.mp (follows_op.mp hk)
    cases hp : host.newParser opts with
    | returned p =>
      rw [hp] at hk
      cases hk
    | failed err =>
      rw [hp] at hk
      obtain rfl := Prog.ret.inj hk
      exact .refused (by rw [hp]; rfl)
    | panicked text =>
      rw [hp] at hk
      obtain rfl := Prog.ret.inj hk
      exact .refused (by rw [hp]; rfl)
  | loaded hp hg =>
    have hk := follows_nil.mp (follows_op.mp (follows_op.mp (follows_op.mp (follows_op.mp
      (follows_op.mp (follows_op.mp (follows_op.mp (follows_op.mp hk))))))))
    obtain rfl := Prog.ret.inj hk
    exact .loaded hp hg
  | @left id src g hg =>
    have hk := follows_nil.mp (follows_op.mp (follows_op.mp (follows_op.mp hk)))
    cases g with
    | none =>
      obtain rfl := Prog.ret.inj hk
      exact .unknown id src
    | some g => cases hk
  | answered hg hr =>
    have hk := follows_nil.mp (follows_op.mp (follows_op.mp (follows_op.mp (follows_op.mp
      (follows_op.mp (follows_op.mp hk))))))
    obtain rfl := Prog.ret.inj hk
    exact .parsed hg hr
  | freed id =>
    have hk := follows_nil.mp (follows_op.mp (follows_op.mp (follows_op.mp hk)))
    obtain rfl := Prog.ret.inj hk
    exact .freed id
  | locked => cases follows_nil.mp (follows_op.mp (follows_op.mp hk))
  | read => cases follows_nil.mp (follows_op.mp (follows_op.mp (follows_op.mp hk)))
  | counted =>
    cases follows_nil.mp (follows_op.mp (follows_op.mp (follows_op.mp (follows_op.mp hk))))
  | named =>
    cases follows_nil.mp (follows_op.mp (follows_op.mp (follows_op.mp (follows_op.mp
      (follows_op.mp hk)))))
  | made =>
    cases follows_nil.mp (follows_op.mp (follows_op.mp (follows_op.mp (follows_op.mp
      (follows_op.mp (follows_op.mp hk))))))
  | stored =>
    cases follows_nil.mp (follows_op.mp (follows_op.mp (follows_op.mp (follows_op.mp
      (follows_op.mp (follows_op.mp (follows_op.mp hk)))))))
  | looking => cases follows_nil.mp (follows_op.mp hk)
  | looked => cases follows_nil.mp (follows_op.mp (follows_op.mp hk))
  | entered =>
    cases follows_nil.mp (follows_op.mp (follows_op.mp (follows_op.mp (follows_op.mp hk))))
  | parsed =>
    cases follows_nil.mp (follows_op.mp (follows_op.mp (follows_op.mp (follows_op.mp
      (follows_op.mp hk)))))
  | freeing => cases follows_nil.mp (follows_op.mp hk)
  | deleted => cases follows_nil.mp (follows_op.mp (follows_op.mp hk))

/-- The accesses to the table of a history, in order. -/
def commits (es : List (ℕ × Event host.sig)) : List Commit := (es.map Prod.snd).filterMap commit

/-- What a thread did to the table is in the history. -/
theorem mem_commits {es : List (ℕ × Event host.sig)} {p : host.Threads}
    (h : Pool.History host.clib (Shared.init host) es p)
    {t : host.Running} (ht : t ∈ p.threads) {c : Commit}
    (hc : c ∈ t.events.filterMap commit) : c ∈ commits es := by
  obtain ⟨e, he, hec⟩ := List.mem_filterMap.mp hc
  obtain ⟨i, hi⟩ := List.mem_iff_getElem?.mp ht
  have hpart := h.partOf i
  rw [hi, Option.map_some, Option.getD_some] at hpart
  rw [← hpart] at he
  obtain ⟨x, hx, rfl⟩ := List.mem_map.mp he
  exact List.mem_filterMap.mpr ⟨x.2, List.mem_map.mpr ⟨x, List.mem_of_mem_filter hx, rfl⟩, hec⟩

theorem served {es : List (ℕ × Event host.sig)} {p : host.Threads}
    (h : Pool.History host.clib (Shared.init host) es p)
    {t : host.Running} (ht : t ∈ p.threads) {a : Doc Handle}
    (ha : t.Done a) : Served p.shared t.root (t.events.filterMap commit) a := by
  obtain ⟨T, hinv⟩ := exists_inv h
  obtain ⟨-, hfollows⟩ := (h.reachable.reached t ht).follows (fun _ _ h => h) plain_body
  exact (hinv.points t ht).served (ha.1 ▸ hfollows)

/-- An operation that waits for no lock is answered. -/
theorem Inv.answers {cs : List Commit} {p : host.Threads} {T : Table} (h : Inv cs p T)
    (hp : Pool.Reachable host.clib (Shared.init host) p)
    {t : host.Running} (ht : t ∈ p.threads) {o : host.Op}
    (ho : Thread.Pending (S := host.sig) host.kind t o)
    (hl : ∃ locks, LockStep (host.kind o) p.shared.locks locks) :
    ∃ r s', host.Handles p.shared o r s' := by
  obtain ⟨k, hk⟩ := ho
  obtain ⟨locks, hl⟩ := hl
  cases o with
  | newParser opts => exact ⟨_, _, .newParser p.shared opts⟩
  | lock l m => exact ⟨_, _, .lock hl⟩
  | unlock l m => exact ⟨_, _, .unlock hl⟩
  | getNext => exact ⟨_, _, .getNext p.shared⟩
  | setNext id => exact ⟨_, _, .setNext p.shared id⟩
  | alloc q => exact ⟨_, _, .alloc p.shared q⟩
  | store id g => exact ⟨_, _, .store p.shared id g⟩
  | find id => exact ⟨_, _, .find p.shared id⟩
  | delete id => exact ⟨_, _, .delete p.shared id⟩
  | parse g src =>
    obtain ⟨-, hfollows⟩ := (hp.reached t ht).follows (fun _ _ h => h) plain_body
    rw [hk] at hfollows
    obtain ⟨hkeeps, -⟩ := (h.points t ht).step hfollows h.made
    obtain ⟨q, hq⟩ := hkeeps.parse g src rfl
    obtain ⟨r, hr⟩ := host.parse_total q src
    exact ⟨r, _, .parse hq hr⟩

/-! ## A load and a parse -/

/-- A host whose parsers take any source for a value. -/
def quiet : Host where
  Err := Unit
  Spec := Unit
  Tabnas := Unit
  Value := Str
  text _ := []
  marshal _ := none
  codeIn _ := none
  tabnasError _ _ := ()
  grammarSpecFromJSON _ := .returned ()
  grammar _ := .returned ()
  ruleStart _ := []
  hasRule _ _ := true
  use _ := .returned ()
  parse _ src r := r = .returned src
  jsonUnsafe _ := []
  encode v := .ok v
  parse_total _ src := ⟨.returned src, rfl⟩

def quietLoad : List (Event quiet.sig) := [⟨.newParser [], .returned ()⟩,
  ⟨.lock .reg .exclusive, ()⟩, ⟨.getNext, 0⟩, ⟨.setNext 1, ()⟩, ⟨.getNext, 1⟩, ⟨.alloc (), 0⟩,
  ⟨.store 1 0, ()⟩, ⟨.unlock .reg .exclusive, ()⟩]

def quietParse : List (Event quiet.sig) := [⟨.lock .reg .shared, ()⟩, ⟨.find 1, some 0⟩,
  ⟨.unlock .reg .shared, ()⟩, ⟨.lock (.mu 0) .exclusive, ()⟩, ⟨.parse 0 "x".toList,
    .returned "x".toList⟩, ⟨.unlock (.mu 0) .exclusive, ()⟩]

theorem quiet_run : ∃ (s : quiet.Shared) (t t' : quiet.Running),
    Pool.History quiet.clib (Shared.init quiet)
      (quietLoad.map (Prod.mk 0) ++ quietParse.map (Prod.mk 1)) ⟨s, [t, t']⟩ ∧
    t.root = .tabnas_grammar (some []) ∧ t.Done (.handle 1) ∧
    t'.root = .tabnas_parse 1 (some "x".toList) ∧ t'.Done (.accepted (.ok "x".toList)) := by
  have hload : Evals quiet.body (quiet.body (.tabnas_grammar (some []))) quietLoad (.handle 1) :=
    .op _ (.op _ (.op _ (.op _ (.op _ (.op _ (.op _ (.op _ (.ret _))))))))
  have hparse : Evals quiet.body (quiet.body (.tabnas_parse 1 (some "x".toList))) quietParse
      (.accepted (.ok "x".toList)) :=
    .op _ (.op _ (.op _ (.op _ (.op _ (.op _ (.ret _))))))
  have hruns : ∃ s, Runs quiet.Handles (Shared.init quiet) (quietLoad ++ quietParse) s :=
    ⟨_, .cons (.newParser _ _) (.cons (.lock (.takeExclusive rfl)) (.cons (.getNext _)
      (.cons (.setNext _ _) (.cons (.getNext _) (.cons (.alloc _ _) (.cons (.store _ _ _)
        (.cons (.unlock (.giveExclusive rfl)) (.cons (.lock (.takeShared rfl)) (.cons (.find _ _)
          (.cons (.unlock (.giveShared rfl)) (.cons (.lock (.takeExclusive rfl))
            (.cons (.parse rfl rfl) (.cons (.unlock (.giveExclusive rfl))
              (.nil _))))))))))))))⟩
  obtain ⟨s, hruns⟩ := hruns
  obtain ⟨s₁, hruns, hruns'⟩ := runs_append.mp hruns
  have hplain (c : Call) : (quiet.clib.body c).Plain := plain_body c
  obtain ⟨t, h, hroot, hdone⟩ := Pool.History.make (M := quiet.clib)
    (c := .tabnas_grammar (some [])) .init trivial (hplain _) hload hruns
  obtain ⟨t', h', hroot', hdone'⟩ := h.make (c := Call.tabnas_parse 1 (some "x".toList)) trivial
    (hplain _) hparse hruns'
  exact ⟨_, t, t', h', hroot, hdone, hroot', hdone'⟩

/-- A load that holds the lock of the table, and a parse that waits for it. -/
theorem quiet_underway : ∃ p : quiet.Threads, Pool.Reachable quiet.clib (Shared.init quiet) p ∧
    p.shared.locks .reg = ⟨0, true⟩ ∧ ∃ t t', p.threads = [t, t'] ∧ (∀ a, ¬ t.Done a) ∧
      Thread.Wants (S := quiet.sig) quiet.kind t' .reg := by
  have h₁ : Pool.Reachable quiet.clib (Shared.init quiet)
      (⟨_, [] ++ _ :: []⟩ : quiet.Threads) :=
    .step .init (.start (c := Call.tabnas_grammar (some [])) trivial) trivial
  have h₂ : Pool.Reachable quiet.clib (Shared.init quiet)
      (⟨_, [] ++ _ :: []⟩ : quiet.Threads) :=
    .step h₁ (.run (.op (.newParser _ _))) trivial
  have h₃ : Pool.Reachable quiet.clib (Shared.init quiet)
      (⟨_, [] ++ _ :: []⟩ : quiet.Threads) :=
    .step h₂ (.run (.op (.lock (.takeExclusive rfl)))) trivial
  have h₄ := Pool.ReachableBy.step h₃
    (.start (c := Call.tabnas_parse 1 (some "x".toList)) trivial) trivial
  exact ⟨_, h₄, rfl, _, _, rfl, fun a ha => (by cases ha.1), _, _, ⟨_, rfl⟩, rfl⟩

/-- Whatever threads call the library and however they interleave, no two are ever about to touch
the table or its counter at once where one of them writes, nor to parse on one parser. And as long
as a call has not ended, one can go on, also where no reader passes a writer that waits: none waits
for ever for another that waits. -/
theorem no_race_no_deadlock (host : Host) (p : host.Threads)
    (hp : Pool.Reachable host.clib (Shared.init host) p) :
    Pool.RaceFree (S := host.sig) host.kind p ∧
      ((∀ t ∈ p.threads, ∃ a, t.Done a) ∨
        ∃ t ∈ p.threads, ¬ Pool.Behind (S := host.sig) host.kind p t ∧
          ∃ s' t', Moves host.clib p.shared t s' t') := by
  obtain ⟨es, h⟩ := hp.history
  obtain ⟨T, hinv⟩ := exists_inv h
  exact ⟨hp.raceFree guarded host.locked fun _ => rfl,
    hp.progress guarded host.locked (fun _ => rfl) fun _ ht _ ho hl => hinv.answers hp ht ho hl⟩

/-- While a load holds the lock of the table and a parse waits for it, one of them can go on. -/
theorem no_race_no_deadlock_quiet : ∃ p : quiet.Threads, p.shared.locks .reg = ⟨0, true⟩ ∧
    p.threads.length = 2 ∧ Pool.RaceFree (S := quiet.sig) quiet.kind p ∧
      ∃ t ∈ p.threads, ¬ Pool.Behind (S := quiet.sig) quiet.kind p t ∧
        ∃ s' t', Moves quiet.clib p.shared t s' t' := by
  obtain ⟨p, hp, hlock, t, t', hts, hopen, -⟩ := quiet_underway
  obtain ⟨hrace, hprogress⟩ := no_race_no_deadlock quiet p hp
  refine ⟨p, hlock, by rw [hts]; rfl, hrace, hprogress.resolve_left fun hended => ?_⟩
  obtain ⟨a, ha⟩ := hended t (by rw [hts]; exact List.mem_cons_self ..)
  exact hopen a ha

/-- Every history of the library is one of a table without threads. The accesses of all calls, in
the order of the history, are answered as the table would answer them in turn; each is the one
access of its call, made while the call runs; and every call that has ended answers by it. -/
theorem calls_linearize (host : Host) (es : List (ℕ × Event host.sig)) (p : host.Threads)
    (h : Pool.History host.clib (Shared.init host) es p) :
    (∃ T, Table.Replays (commits es) T ∧ T.live = p.shared.loaded) ∧
      (∀ i t, p.threads[i]? = some t → partOf i es = t.events) ∧
      ∀ t ∈ p.threads, ∀ a, t.Done a → Served p.shared t.root (t.events.filterMap commit) a := by
  obtain ⟨T, hinv⟩ := exists_inv h
  refine ⟨⟨T, hinv.replays, hinv.live⟩, fun i t hi => ?_, fun t ht a ha => served h ht ha⟩
  rw [h.partOf i, hi]
  rfl

theorem calls_linearize_quiet : ∃ (s : quiet.Shared) (t : quiet.Running),
    (∃ T, Table.Replays [.load 1 0, .look 1 (some 0)] T ∧ T.live = s.loaded) ∧
      Served s t.root (t.events.filterMap commit) (.accepted (.ok "x".toList)) := by
  obtain ⟨s, t, t', h, -, -, -, hdone'⟩ := quiet_run
  obtain ⟨hT, -, hserved⟩ := calls_linearize quiet _ _ h
  exact ⟨s, t', hT, hserved t' (List.mem_cons_of_mem _ (List.mem_singleton_self _)) _ hdone'⟩

/-- Of the accesses of a history one alone loads under a handle, where no handle is loaded twice. -/
theorem load_unique {es : List (ℕ × Event host.sig)}
    (hnodup : ((Table.loads (commits es)).map Prod.fst).Nodup) {x y : ℕ × Event host.sig}
    (hx : x ∈ es) (hy : y ∈ es) {id : Handle} {g g' : ℕ} (hload : commit x.2 = some (.load id g))
    (hload' : commit y.2 = some (.load id g')) : x = y := by
  unfold commits Table.loads at hnodup
  rw [List.Nodup, List.pairwise_map, List.pairwise_filterMap, List.pairwise_filterMap,
    List.pairwise_map] at hnodup
  have hapart {x y : ℕ × Event host.sig} {g g' : ℕ} (hxy : [x, y].Sublist es)
      (hload : commit x.2 = some (.load id g)) (hload' : commit y.2 = some (.load id g')) : False :=
    List.pairwise_iff_forall_sublist.mp hnodup hxy _ hload _ hload' _ rfl _ rfl rfl
  obtain ⟨pre, post, rfl⟩ := List.append_of_mem hx
  rcases List.mem_append.mp hy with hy | hy
  · refine (hapart ?_ hload' hload).elim
    exact (List.singleton_sublist.mpr hy).append
      (List.singleton_sublist.mpr (List.mem_cons_self ..))
  · rcases List.mem_cons.mp hy with rfl | hy
    · rfl
    · refine (hapart ?_ hload hload').elim
      exact (List.cons_sublist_cons.mpr (List.singleton_sublist.mpr hy)).trans
        (List.sublist_append_right ..)

theorem conclude_ne_handle (r : Except (Failure host.Err) host.Value) (id : Handle) :
    host.conclude r ≠ .handle id := by
  intro h
  unfold conclude acceptDoc at h
  dsimp only at h
  split at h
  · split_ifs at h
    split at h <;> cases h
  · cases h
  · split_ifs at h

/-- A call that answers a handle loaded a parser under it. -/
theorem Served.load {s : host.Shared} {c : Call} {cs : List Commit} {a : Doc Handle}
    (h : Served s c cs a) {id : Handle} (ha : a = .handle id) : ∃ g, .load id g ∈ cs := by
  cases h with
  | @loaded opts p id' g hp hg =>
    obtain rfl := Doc.handle.inj ha
    exact ⟨g, List.mem_singleton_self _⟩
  | parsed => exact absurd ha (conclude_ne_handle _ _)
  | _ => cases ha

theorem mem_of_loaded {es : List (ℕ × Event host.sig)} {p : host.Threads}
    (h : Pool.History host.clib (Shared.init host) es p) {i : ℕ} {t : host.Running}
    (hi : p.threads[i]? = some t) {id : Handle} (ht : t.Done (.handle id)) :
    ∃ e g, (i, e) ∈ es ∧ commit e = some (.load id g) := by
  have hserved := served h (List.mem_of_getElem? hi) ht
  have hpart := h.partOf i
  rw [hi, Option.map_some, Option.getD_some] at hpart
  obtain ⟨g, hg⟩ := hserved.load rfl
  obtain ⟨e, he, hcommit⟩ := List.mem_filterMap.mp hg
  rw [← hpart] at he
  obtain ⟨x, hx, rfl⟩ := List.mem_map.mp he
  obtain ⟨hmem, hxi⟩ := List.mem_filter.mp hx
  obtain rfl : x.1 = i := of_decide_eq_true hxi
  exact ⟨x.2, g, hmem, hcommit⟩

/-- As long as fewer than 2 ^ 64 parsers were loaded, a handle stands for the one parser that its
load built: no two loads answer the same handle, a parse by the handle that a load answered parses
on that parser, or finds none, and once the handle is freed, no later parse finds one. -/
theorem one_parser_per_handle (host : Host) (es : List (ℕ × Event host.sig)) (p : host.Threads)
    (h : Pool.History host.clib (Shared.init host) es p)
    (hfew : (Table.loads (commits es)).length < 2 ^ 64) :
    (∀ (i j : ℕ) (t t' : host.Running) (id : Handle), p.threads[i]? = some t →
      p.threads[j]? = some t' → t.Done (.handle id) → t'.Done (.handle id) → i = j) ∧
    (∀ t ∈ p.threads, ∀ t' ∈ p.threads, ∀ opts id src a, t.root = .tabnas_grammar (some opts) →
      t.Done (.handle id) → t'.root = .tabnas_parse id (some src) → t'.Done a →
      a = .fail "handle".toList "no parser is loaded under that handle".toList ∨
        ∃ q r, host.newParser opts = .returned q ∧ host.parse q src r ∧
          a = host.conclude r.contained) ∧
    ∀ pre post id g g', commits es = pre ++ .free id :: post → .load id g ∈ pre →
      .look id g' ∈ post → g' = none := by
  obtain ⟨T, hinv⟩ := exists_inv h
  have hnodup := hinv.replays.nodup hfew
  refine ⟨fun i j t t' id hi hj hdone hdone' => ?_,
    fun t ht t' ht' opts id src a hroot hdone hroot' hdone' => ?_,
    fun pre post id g g' hes hload hlook => ?_⟩
  · obtain ⟨e, g, he, hload⟩ := mem_of_loaded h hi hdone
    obtain ⟨e', g', he', hload'⟩ := mem_of_loaded h hj hdone'
    exact congrArg Prod.fst (load_unique hnodup he he' hload hload')
  · have hserved := served h ht hdone
    have hserved' := served h ht' hdone'
    have hmem {c : Commit} := mem_commits (c := c) h ht
    have hmem' {c : Commit} := mem_commits (c := c) h ht'
    generalize t.events.filterMap commit = cs at hserved hmem
    generalize t'.events.filterMap commit = cs' at hserved' hmem'
    rw [hroot] at hserved
    rw [hroot'] at hserved'
    cases hserved with
    | @loaded _ q _ g hq hg =>
      cases hserved' with
      | unknown => exact .inl rfl
      | @parsed _ _ g' q' r hg' hr =>
        have hload := Table.mem_loads.mpr (hmem (List.mem_singleton_self _))
        have hlook := hinv.replays.look (hmem' (List.mem_singleton_self _))
        obtain rfl : g = g' :=
          (Prod.mk.inj (List.inj_on_of_nodup_map hnodup hload hlook rfl)).2
        obtain rfl := Option.some.inj (hg.symm.trans hg')
        exact .inr ⟨q, r, hq, hr, rfl⟩
  · obtain ⟨xs, ys, rfl⟩ := List.append_of_mem hlook
    have hcs : commits es = (pre ++ .free id :: xs) ++ .look id g' :: ys := by
      rw [hes, List.append_assoc, List.cons_append]
    have hreplays := hinv.replays
    rw [show (es.map Prod.snd).filterMap commit = _ from hcs] at hreplays
    obtain ⟨T', hT', hserves⟩ := hreplays.split
    have hout : ∀ g'', (id, g'') ∉ Table.loads xs := by
      intro g'' hg''
      have hcs' : commits es = pre ++ (.free id :: (xs ++ .look id g' :: ys)) := hes
      rw [show (es.map Prod.snd).filterMap commit = _ from hcs', Table.loads_append,
        List.map_append, List.nodup_append] at hnodup
      refine hnodup.2.2 id ?_ id ?_ rfl
      · exact List.mem_map_of_mem (Table.mem_loads.mpr hload)
      · refine List.mem_map.mpr ⟨(id, g''), Table.mem_loads.mpr ?_, rfl⟩
        exact List.mem_cons_of_mem _ (List.mem_append_left _ (Table.mem_loads.mp hg''))
    exact hserves.trans (hT'.out hout)

/-- The parse of the run is on the parser that the load built. -/
theorem one_parser_per_handle_quiet : ∃ q r, quiet.newParser [] = .returned q ∧
    quiet.parse q "x".toList r ∧ quiet.conclude r.contained = .accepted (.ok "x".toList) := by
  obtain ⟨s, t, t', h, hroot, hdone, hroot', hdone'⟩ := quiet_run
  have hfew : (Table.loads (commits (quietLoad.map (Prod.mk 0) ++
      quietParse.map (Prod.mk 1)))).length < 2 ^ 64 := by
    decide
  have hone := (one_parser_per_handle quiet _ _ h hfew).2.1 t (List.mem_cons_self ..) t'
    (List.mem_cons_of_mem _ (List.mem_singleton_self _)) [] 1 "x".toList _ hroot hdone hroot' hdone'
  rcases hone with hnone | ⟨q, r, hq, hr, ha⟩
  · cases hnone
  · exact ⟨q, r, hq, hr, ha.symm⟩

end Host

end MultiSource.Clib
