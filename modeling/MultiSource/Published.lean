import MultiSource.Ledger

/-!
# The published parser

One cell holds the parser that nested parses run on, and every top-level parse of the installation
writes it. A parse gets its own parser back as long as no other instance is published while it
runs, and not otherwise.
-/

namespace MultiSource

open Interaction

variable {I : Type} {options : MultiSourceOptions} {engine : Engine I options.markchar}
  {W : World I}

/-- A step that puts another parser in the cell only where no parse runs, of those that have
published, that was started on a different one. -/
def Undisturbed (p q : Parses options I) : Prop :=
  q.shared.published = p.shared.published ∨
    ∀ t ∈ p.threads, t.ended = false → ∀ n ∈ t.notes, n.live = true →
      q.shared.published = some n.home

/-- An operation on the parser of a load is on the instance its top-level parse was started on. -/
def Served (n : Note I) : Event (sig I) → Prop
  | ⟨.getParser, r⟩ => r = some n.home
  | ⟨.process _ _ _ parser _, _⟩ => parser = n.home
  | _ => True

/-- A parse on its own instance, with its own instance in hand. -/
structure AtHome (n : Note I) : Prop where
  parser : n.call.parser = n.home
  got : ∀ i, n.got = some i → i = n.home

/-- All frames of a thread are at home, and all its operations were. -/
structure HomeThread (t : Running options I) : Prop where
  notes : ∀ n ∈ t.notes, AtHome (I := I) n
  events : ∀ e ∈ t.trace, Served (I := I) e.1 e.2

/-! ## One step -/

section Step

variable {s s' : Shared I} {t t' : Running options I}

theorem AtHome.tell {n : Note I} (h : AtHome n) (o : Op I) (r : o.Resp) :
    AtHome ((ledger options).tell n o r) := by
  obtain ⟨_, hn⟩ := tell_noted options n o r
  rw [hn]
  exact ⟨h.parser, h.got⟩

theorem enter_none_live (options : MultiSourceOptions) (c : Call I) :
    ((ledger options).enter none c).live = false := by
  cases c <;> rfl

theorem TopLevel.atHome (options : MultiSourceOptions) {c : Call I} (h : TopLevel c)
    (n : Option (Note I)) : AtHome ((ledger options).enter n c) := by
  cases c with
  | parse parser src parseMeta =>
    cases n <;> exact ⟨rfl, fun _ h => absurd h (by simp [Note.fresh])⟩
  | nested parser src parseMeta depth => exact absurd h id

theorem Nests.atHome {n : Note I} {parser : I} {src : Str} {parseMeta : Value} {depth : ℕ}
    (h : Nests options n parseMeta parser depth) (hn : AtHome n) :
    AtHome (n.nest (.nested parser src parseMeta depth)) :=
  ⟨hn.got parser h.got, fun _ h => absurd h (by simp [Note.nest])⟩

theorem HomeThread.enter {c d : Call I} {n : Note I} {p p' : Program I (Except TabnasError Value)}
    {k : Except TabnasError Value → Program I (Except TabnasError Value)}
    {cs : List ((ledger options).Note × (Except TabnasError Value → Program I _))}
    {tr : List (Note I × Event (sig I))}
    (h : HomeThread (⟨c, n, p, cs, tr⟩ : Running options I))
    (hd : AtHome ((ledger options).enter (some n) d)) :
    HomeThread
      (⟨c, (ledger options).enter (some n) d, p', (n, k) :: cs, tr⟩ : Running options I) := by
  refine ⟨fun m hm => ?_, h.events⟩
  rcases List.mem_cons.mp hm with rfl | hm
  · exact hd
  · exact h.notes m hm

theorem HomeThread.moves (hm : Moves (installation engine W Foreign TopLevel) s t s' t')
    (ht : Typed (installation engine W Foreign TopLevel) (guard options) t)
    (hlive : t.note.live = true → s.published = some t.note.home) (h : HomeThread t) :
    HomeThread t' := by
  cases hm with
  | @op _ c n o k cs tr r ho =>
    obtain ⟨ha, -⟩ := (ht.running n (.refl o n)).1
    have hn : AtHome n := h.notes n (List.mem_cons_self ..)
    have hserved : Served n ⟨o, r⟩ := by
      cases ho with
      | getParser => exact hlive ha
      | process _ => exact hn.got _ ha.got
      | _ => exact trivial
    have hmark : AtHome ((ledger options).mark n o r) := by
      cases o with
      | getParser => exact ⟨hn.parser, fun i hi => Option.some.inj (hi.symm.trans hserved)⟩
      | _ => exact ⟨hn.parser, hn.got⟩
    refine ⟨fun m hm => ?_, fun e he => ?_⟩
    · rcases List.mem_cons.mp hm with rfl | hm
      · exact hmark
      · rcases mem_hear hm with hm' | ⟨m', hm', rfl⟩
        · exact h.notes m (List.mem_cons_of_mem _ hm')
        · exact (h.notes m' (List.mem_cons_of_mem _ hm')).tell o r
    · rcases List.mem_append.mp he with he | he
      · exact h.events e he
      · rw [List.mem_singleton.mp he]
        exact hserved
  | @call c d n k cs tr =>
    apply h.enter
    cases d with
    | parse parser src parseMeta => exact absurd ht.running.1 id
    | nested parser src parseMeta depth =>
      exact ht.running.1.1.atHome (h.notes n (List.mem_cons_self ..))
  | @reenter c d n o k cs tr hd =>
    obtain ⟨ha, -⟩ := (ht.running n (.refl o n)).1
    apply h.enter
    cases hd with
    | resolver hc => exact hc.atHome options (some n)
    | processor hc => exact hc.atHome options (some n)
    | source hm => exact (ha.congr hm).atHome (h.notes n (List.mem_cons_self ..))
  | ret => exact ⟨fun m hm => h.notes m (List.mem_cons_of_mem _ hm), h.events⟩

/-- A frame under a parse that has published was so before the step, or has just published. -/
theorem live_of_moves (hm : Moves (installation engine W Foreign TopLevel) s t s' t')
    (ht : Typed (installation engine W Foreign TopLevel) (guard options) t) :
    ∀ m ∈ t'.notes, m.live = true →
      (∃ n ∈ t.notes, n.live = true ∧ n.home = m.home) ∨ s'.published = some m.home := by
  have henter (n : Note I) (d : Call I) (hd : ((ledger options).enter (some n) d).live = true) :
      n.live = true ∧ n.home = ((ledger options).enter (some n) d).home := by
    cases d with
    | parse parser src parseMeta => exact absurd hd (by simp [Note.fresh])
    | nested parser src parseMeta depth => exact ⟨hd, rfl⟩
  intro m hmem hlive
  cases hm with
  | @op _ c n o k cs tr r ho =>
    obtain ⟨ha, -⟩ := (ht.running n (.refl o n)).1
    rcases List.mem_cons.mp hmem with rfl | hmem
    · cases ho with
      | publish => exact .inr (by rw [Shared.publish, ha.1, ← ha.2])
      | _ => exact .inl ⟨n, List.mem_cons_self .., hlive, rfl⟩
    · rcases mem_hear hmem with hm' | ⟨m', hm', rfl⟩
      · exact .inl ⟨m, List.mem_cons_of_mem _ hm', hlive, rfl⟩
      · obtain ⟨_, he⟩ := tell_noted options m' o r
        rw [he] at hlive ⊢
        exact .inl ⟨m', List.mem_cons_of_mem _ hm', hlive, rfl⟩
  | @call c d n k cs tr =>
    rcases List.mem_cons.mp hmem with rfl | hmem
    · exact .inl ⟨n, List.mem_cons_self .., henter n d hlive⟩
    · exact .inl ⟨m, hmem, hlive, rfl⟩
  | @reenter c d n o k cs tr _ =>
    rcases List.mem_cons.mp hmem with rfl | hmem
    · exact .inl ⟨n, List.mem_cons_self .., henter n d hlive⟩
    · exact .inl ⟨m, hmem, hlive, rfl⟩
  | ret => exact .inl ⟨m, List.mem_cons_of_mem _ hmem, hlive, rfl⟩

theorem published_of_moves (hm : Moves (installation engine W Foreign TopLevel) s t s' t')
    (h : s.published.isSome = true) : s'.published.isSome = true := by
  cases hm with
  | op ho =>
    cases ho with
    | publish => rfl
    | _ => exact h
  | _ => exact h

theorem ended_of_moves (hm : Moves (installation engine W Foreign TopLevel) s t s' t') :
    t.ended = false := by
  cases hm <;> rfl

end Step

/-! ## All steps -/

/-- The parser in the cell is that of every parse that runs and has published. -/
structure HomeInv (p : Parses options I) : Prop where
  live : ∀ t ∈ p.threads, t.ended = false → ∀ n ∈ t.notes, n.live = true →
    p.shared.published = some n.home
  home : ∀ t ∈ p.threads, HomeThread t

theorem homeInv {s₀ : Shared I} {p : Parses options I}
    (hp : Pool.ReachableBy (installation engine W Foreign TopLevel) Undisturbed s₀ p) :
    HomeInv p := by
  induction hp with
  | init => exact ⟨fun _ ht => absurd ht List.not_mem_nil, fun _ ht => absurd ht List.not_mem_nil⟩
  | step hp hs hC ih =>
    have htyped := Pool.ReachableBy.typed (guarded (fun _ _ h => h) fun _ h => h) hp
    cases hs with
    | @start s ts c hc =>
      refine ⟨fun t ht hend n hn hlive => ?_, fun t ht => ?_⟩
      · rcases List.mem_append.mp ht with ht | ht
        · exact ih.live t ht hend n hn hlive
        · rw [List.mem_singleton.mp ht] at hn
          rw [List.mem_singleton.mp hn] at hlive
          exact absurd ((enter_none_live options c).symm.trans hlive) (by simp)
      · rcases List.mem_append.mp ht with ht | ht
        · exact ih.home t ht
        · rw [List.mem_singleton.mp ht]
          refine ⟨fun n hn => ?_, fun _ he => absurd he List.not_mem_nil⟩
          rw [List.mem_singleton.mp hn]
          exact TopLevel.atHome options hc none
    | @run s s' ts₁ ts₂ t t' hm =>
      have htm : t ∈ ts₁ ++ t :: ts₂ := by simp
      have hend := ended_of_moves hm
      -- what was published for a parse that runs still is, or the step was undisturbed
      have hkeep : ∀ u ∈ ts₁ ++ t :: ts₂, u.ended = false → ∀ n ∈ u.notes, n.live = true →
          s'.published = some n.home := fun u hu hue n hn hlive => by
        rcases hC with hsame | hC
        · rw [hsame]
          exact ih.live u hu hue n hn hlive
        · exact hC u hu hue n hn hlive
      have hlive' : ∀ n ∈ t'.notes, n.live = true → s'.published = some n.home := fun m hm' hl => by
        rcases live_of_moves hm (htyped t htm) m hm' hl with ⟨n, hn, hnl, he⟩ | h
        · rw [← he]
          exact hkeep t htm hend n hn hnl
        · exact h
      have hhome' : HomeThread t' :=
        (ih.home t htm).moves hm (htyped t htm) (ih.live t htm hend _ (List.mem_cons_self ..))
      refine ⟨fun u hu hue => ?_, fun u hu => ?_⟩
      · rcases mem_replaced hu with rfl | hu
        · exact hlive'
        · exact hkeep u hu hue
      · rcases mem_replaced hu with rfl | hu
        · exact hhome'
        · exact ih.home u hu

/-- Where a parse has published, there is a parser in the cell. -/
theorem published_of_live {C : Parses options I → Parses options I → Prop} {s₀ : Shared I}
    {p : Parses options I}
    (hp : Pool.ReachableBy (installation engine W Foreign TopLevel) C s₀ p) :
    ∀ t ∈ p.threads, ∀ n ∈ t.notes, n.live = true → p.shared.published.isSome = true := by
  induction hp with
  | init => exact fun _ ht => absurd ht List.not_mem_nil
  | step hp hs _ ih =>
    have htyped := Pool.ReachableBy.typed (guarded (fun _ _ h => h) fun _ h => h) hp
    cases hs with
    | @start s ts c hc =>
      intro t ht n hn hlive
      rcases List.mem_append.mp ht with ht | ht
      · exact ih t ht n hn hlive
      · rw [List.mem_singleton.mp ht] at hn
        rw [List.mem_singleton.mp hn] at hlive
        exact absurd ((enter_none_live options c).symm.trans hlive) (by simp)
    | @run s s' ts₁ ts₂ t t' hm =>
      have htm : t ∈ ts₁ ++ t :: ts₂ := by simp
      intro u hu n hn hlive
      rcases mem_replaced hu with rfl | hu
      · rcases live_of_moves hm (htyped t htm) n hn hlive with ⟨m, hm', hml, -⟩ | h
        · exact published_of_moves hm (ih t htm m hm' hml)
        · rw [h]
          rfl
      · exact published_of_moves hm (ih u hu n hn hlive)

/-- In every run whose steps are all undisturbed, every parse, nested or not, runs on the instance
its top-level parse was started on, and so does every processor. -/
theorem nested_parse_stays_home (engine : Engine I options.markchar) (W : World I) {s₀ : Shared I}
    {p : Parses options I}
    (hp : Pool.ReachableBy (installation engine W Foreign TopLevel) Undisturbed s₀ p) :
    ∀ t ∈ p.threads, (∀ n ∈ t.notes, n.call.parser = n.home) ∧
      (∀ n r, (n, ⟨.getParser, r⟩) ∈ t.trace → r = some n.home) ∧
      ∀ n id resolution parseMeta parser depth r,
        (n, ⟨.process id resolution parseMeta parser depth, r⟩) ∈ t.trace → parser = n.home := by
  intro t ht
  have h := (homeInv hp).home t ht
  exact ⟨fun n hn => (h.notes n hn).parser, fun n r he => h.events _ he,
    fun n id resolution parseMeta parser depth r he => h.events _ he⟩

/-! ## Two instances -/

instance Undisturbed.decidable [DecidableEq I] (p q : Parses options I) :
    Decidable (Undisturbed p q) :=
  inferInstanceAs (Decidable (_ ∨ ∀ t ∈ p.threads, t.ended = false → ∀ n ∈ t.notes,
    n.live = true → q.shared.published = some n.home))

abbrev pairSystem : System (sig Bool) (Shared Bool) :=
  installation aloneEngine danglingWorld Foreign TopLevel

/-- The same document on each of two instances, stepped by `schedule`. -/
def pairRun (schedule : List ℕ) : Parses MultiSourceOptions.new Bool :=
  schedule.foldl (Pool.turn pairSystem (answer danglingResolve))
    ⟨Shared.init, [Thread.start pairSystem (ledger MultiSourceOptions.new)
      (.parse true "@a".toList .undefined), Thread.start pairSystem (ledger MultiSourceOptions.new)
      (.parse false "@a".toList .undefined)]⟩

theorem topLevel_pair (i : Bool) : TopLevel (.parse i "@a".toList .undefined) := ⟨rfl, rfl⟩

/-- Both documents publish, and then the first one loads. -/
theorem nested_parse_strays :
    ¬ ∀ p : Parses MultiSourceOptions.new Bool, Pool.Reachable pairSystem Shared.init p →
      ∀ t ∈ p.threads, ∀ n ∈ t.notes, n.call.parser = n.home := by
  intro h
  have hp : Pool.Reachable pairSystem Shared.init (pairRun [0, 1, 0, 0, 0, 0]) :=
    Pool.ReachableBy.turns (handles_answer danglingResolve _)
      (.step (.step .init (.start (topLevel_pair true)) trivial) (.start (topLevel_pair false))
        trivial) (Pool.keeps_trivial _ _)
  have hno : ¬ ∀ t ∈ (pairRun [0, 1, 0, 0, 0, 0]).threads, ∀ n ∈ t.notes,
      n.call.parser = n.home := by
    decide +kernel
  exact hno (h _ hp)

/-- The second document publishes when the first one has ended, and both end. -/
theorem nested_parse_stays_home_inTurn :
    (pairRun (List.replicate 12 0 ++ List.replicate 12 1)).threads.map Thread.ended =
        [true, true] ∧
      ∀ t ∈ (pairRun (List.replicate 12 0 ++ List.replicate 12 1)).threads, ∀ n ∈ t.notes,
        n.call.parser = n.home := by
  have hp : Pool.ReachableBy pairSystem Undisturbed Shared.init
      (pairRun (List.replicate 12 0 ++ List.replicate 12 1)) :=
    Pool.ReachableBy.turns (handles_answer danglingResolve _)
      (.step (.step .init (.start (topLevel_pair true)) (.inl rfl)) (.start (topLevel_pair false))
        (.inl rfl)) (by decide +kernel)
  exact ⟨by decide +kernel, fun t ht =>
    (nested_parse_stays_home aloneEngine danglingWorld hp t ht).1⟩

end MultiSource
