import MultiSource.Cycles
import MultiSource.Edges

/-!
# The dependency sink

Any number of parses share one sink, of one installation or of several. An action that draws an
edge writes it before it does anything else, and a write replaces no record but the one of the same
edge.
-/

namespace MultiSource

open Interaction

variable {I : Type} {options : MultiSourceOptions} {engine : Engine I options.markchar}
  {W : World I} {s s' : Shared I}

/-- The event is a resolution to `src` that passes both checks, for a reference in the source `tar`
or in the document. -/
def Loads (options : MultiSourceOptions) (e : Event (sig I)) (tar src : Str) : Prop :=
  ∃ reference parseMeta r, e = ⟨.resolve reference parseMeta, r⟩ ∧ r.found = true ∧
    chainReport options.maxDepth (metaChain parseMeta) r.fullPath = none ∧
    tar = (sourcePath parseMeta).getD TOP ∧ src = r.fullPath

/-- A load of the thread from `tar` to `src`. -/
def LoadedBy (t : Running options I) (tar src : Str) : Prop :=
  ∃ e ∈ t.events, Loads options e tar src

/-- The edge an event writes. -/
def writeAt : Event (sig I) → Option (Str × Str)
  | ⟨.depend tar src, _⟩ => some (tar, src)
  | _ => none

/-- The edges a thread has drawn, and those it has written. -/
def drawnBy (t : Running options I) : List (Str × Str) := t.events.filterMap (edgeAt options)

def writtenBy (t : Running options I) : List (Str × Str) := t.events.filterMap writeAt

section Step

/-- What a thread has drawn it has written, in order, but for an edge its running action owes. -/
structure Balanced (t : Running options I) : Prop where
  waiting : ∀ f ∈ t.callers, f.1.owed = none
  drawn : drawnBy t = writtenBy t ++ t.note.owed.toList

/-- An operation that draws an edge makes it owed, and the one that writes it pays it. -/
theorem owed_mark (hdeps : options.deps = true) {n : Note I} {o : Op I} (r : o.Resp)
    (h : (guard options).allow n o) :
    n.owed.toList ++ (edgeAt options ⟨o, r⟩).toList =
      (writeAt (I := I) ⟨o, r⟩).toList ++ ((ledger options).mark n o r).owed.toList := by
  cases o with
  | resolve reference parseMeta =>
    obtain ⟨⟨hm, hsound, hidle, -⟩, -⟩ := h
    have hchain : metaChain parseMeta = n.chain := hm ▸ hsound.chain_eq
    simp only [hidle.owed, edgeAt, writeAt, hdeps, hchain, if_true]
  | depend tar src =>
    obtain ⟨hproper, -⟩ := h
    rw [show n.owed = some (tar, src) from hproper]
    rfl
  | _ => exact List.append_nil _

theorem drawnBy_op (hdeps : options.deps = true) {t t' : Running options I} {o : Op I} {r : o.Resp}
    (h : drawnBy t = writtenBy t ++ t.note.owed.toList) (ha : (guard options).allow t.note o)
    (ht : t'.trace = t.trace ++ [(t.note, ⟨o, r⟩)])
    (hn : t'.note = (ledger options).mark t.note o r) :
    drawnBy t' = writtenBy t' ++ t'.note.owed.toList :=
  calc drawnBy t'
      = writtenBy t ++ (t.note.owed.toList ++ (edgeAt options ⟨o, r⟩).toList) := by
        rw [drawnBy, Thread.filterMap_events_snoc _ t ht, ← List.append_assoc, ← h]
        rfl
    _ = writtenBy t ++ (writeAt (I := I) ⟨o, r⟩).toList ++ t'.note.owed.toList := by
        rw [owed_mark hdeps r ha, List.append_assoc, hn]
    _ = writtenBy t' ++ t'.note.owed.toList := by
        rw [writtenBy, writtenBy, Thread.filterMap_events_snoc _ t ht]

theorem Balanced.moves (hdeps : options.deps = true) {t t' : Running options I}
    (h : Moves (installation engine W sealed Fresh) s t s' t')
    (ht : Typed (installation engine W sealed Fresh) (guard options) t) (hb : Balanced t) :
    Balanced t' := by
  obtain ⟨hwaiting, hdrawn⟩ := hb
  cases h with
  | @op _ c n o k cs tr r ho =>
    refine ⟨?_, ?_⟩
    · cases cs with
      | nil => exact fun _ hf => absurd hf List.not_mem_nil
      | cons f cs =>
        intro g hg
        rcases List.mem_cons.mp hg with rfl | hg
        · exact (tell_owed options f.1 o r).trans (hwaiting f (List.mem_cons_self ..))
        · exact hwaiting g (List.mem_cons_of_mem _ hg)
    · exact drawnBy_op hdeps hdrawn (ht.running n (.refl o n)).1 rfl rfl
  | @call c d n k cs tr =>
    cases d with
    | parse parser src parseMeta => exact absurd ht.running.1 id
    | nested parser src parseMeta depth =>
      have howed : n.owed = none := ht.running.1.1.owed
      refine ⟨fun g hg => ?_, ?_⟩
      · rcases List.mem_cons.mp hg with rfl | hg
        · exact howed
        · exact hwaiting g hg
      · rw [howed] at hdrawn
        exact hdrawn
  | reenter hd => exact absurd hd id
  | @ret c n m a k cs tr =>
    have howed : n.owed = none := ht.running.2
    refine ⟨fun g hg => hwaiting g (List.mem_cons_of_mem _ hg), ?_⟩
    rw [howed] at hdrawn
    rw [hwaiting (m, k) (List.mem_cons_self ..)]
    exact hdrawn

/-- One step on the sink: nothing is written, or the one record of an edge is. -/
theorem sink_of_moves {t t' : Running options I}
    (h : Moves (installation engine W sealed Fresh) s t s' t') :
    (s'.deps = s.deps ∧ writtenBy t' = writtenBy t) ∨
      ∃ tar src wen, s' = s.depend tar src wen ∧ writtenBy t' = writtenBy t ++ [(tar, src)] := by
  cases h with
  | @op _ c n o k cs tr r ho =>
    have hw (t' : Running options I) (ht : t'.trace = tr ++ [(n, ⟨o, r⟩)]) :
        writtenBy t' = writtenBy (⟨c, n, .op o k, cs, tr⟩ : Running options I) ++
          (writeAt (I := I) ⟨o, r⟩).toList :=
      Thread.filterMap_events_snoc _ _ ht
    cases ho with
    | depend wen => exact .inr ⟨_, _, wen, rfl, hw _ rfl⟩
    | resolve _ => exact .inl ⟨rfl, (hw _ rfl).trans (List.append_nil _)⟩
    | process _ => exact .inl ⟨rfl, (hw _ rfl).trans (List.append_nil _)⟩
    | spawn _ => exact .inl ⟨rfl, (hw _ rfl).trans (List.append_nil _)⟩
    | publish => exact .inl ⟨rfl, (hw _ rfl).trans (List.append_nil _)⟩
    | getParser => exact .inl ⟨rfl, (hw _ rfl).trans (List.append_nil _)⟩
    | ticket => exact .inl ⟨rfl, (hw _ rfl).trans (List.append_nil _)⟩
    | record => exact .inl ⟨rfl, (hw _ rfl).trans (List.append_nil _)⟩
    | take => exact .inl ⟨rfl, (hw _ rfl).trans (List.append_nil _)⟩
    | discard => exact .inl ⟨rfl, (hw _ rfl).trans (List.append_nil _)⟩
  | call => exact .inl ⟨rfl, rfl⟩
  | reenter _ => exact .inl ⟨rfl, rfl⟩
  | ret => exact .inl ⟨rfl, rfl⟩

/-- No step takes a record out of the sink. -/
theorem find_mono {t t' : Running options I}
    (h : Moves (installation engine W sealed Fresh) s t s' t') {tar src : Str}
    (hs : (s.deps.find tar src).isSome = true) : (s'.deps.find tar src).isSome = true := by
  rcases sink_of_moves h with ⟨hdeps, -⟩ | ⟨tar', src', wen, rfl, -⟩
  · rwa [hdeps]
  · rw [Shared.find_depend]
    split_ifs
    · rfl
    · exact hs

end Step

/-! ## One thread -/

section Reached

variable {t : Running options I}

theorem balanced (hdeps : options.deps = true)
    (ht : Thread.Reached (installation engine W sealed Fresh) t) : Balanced t := by
  induction ht with
  | @start c _ => exact ⟨fun _ hf => absurd hf List.not_mem_nil, by cases c <;> rfl⟩
  | moves ht hm ih => exact ih.moves hdeps hm (ht.typed guarded_sealed)

/-- The last source of the chain is the one the parse reads. -/
theorem noteRule_last : NoteRule (installation engine W sealed Fresh) (guard options)
    (fun n : Note I => n.chain.getLast? = sourcePath n.call.parseMeta) where
  top c hc := by
    cases c with
    | parse parser src parseMeta =>
      show (metaChain parseMeta).getLast? = sourcePath parseMeta
      rw [Unmarked.chain hc, Unmarked.path hc]
      rfl
    | nested parser src parseMeta depth => exact absurd hc id
  call n c hn hc := by
    cases c with
    | parse parser src parseMeta => exact absurd hc id
    | nested parser src parseMeta depth =>
      obtain ⟨full, hl⟩ := Option.isSome_iff_exists.mp hc.2
      show (n.chain ++ n.loading.toList).getLast? = sourcePath parseMeta
      rw [hc.1.path, hl, Option.toList_some, List.getLast?_concat]
  foreign n o c _ _ hc := absurd hc id
  mark n o r hn _ := by rwa [mark_chain, mark_call]
  tell n o r hn := by rwa [tell_chain, tell_call]

/-- An edge is drawn at a load, from the source the parse reads. -/
theorem edgeAt_iff (ht : Thread.Reached (installation engine W sealed Fresh) t)
    {e : Event (sig I)} (he : e ∈ t.events) {tar src : Str} :
    edgeAt options e = some (tar, src) ↔ Loads options e tar src := by
  obtain ⟨⟨n, e⟩, hmem, rfl⟩ := List.mem_map.mp he
  have hlast := (noteRule_last.notes guarded_sealed ht).2 _ hmem
  have hallow := ht.allowed guarded_sealed _ hmem
  obtain ⟨o, r⟩ := e
  cases o with
  | resolve reference parseMeta =>
    obtain ⟨⟨hm, hsound, -⟩, -⟩ := hallow
    have hl : (metaChain parseMeta).getLast? = sourcePath parseMeta := by
      rw [hm, hsound.chain_eq]
      exact hlast
    constructor
    · intro h
      rw [edgeAt, edgeOf] at h
      split_ifs at h with hc
      obtain ⟨rfl, rfl⟩ := Prod.mk.inj (Option.some.inj h)
      exact ⟨_, _, r, rfl, hc.1, hc.2, by rw [hl], rfl⟩
    · rintro ⟨_, _, _, he, hfound, hc, rfl, rfl⟩
      obtain ⟨hop, hr⟩ := Sigma.mk.inj he
      obtain ⟨rfl, rfl⟩ := Op.resolve.inj hop
      obtain rfl := eq_of_heq hr
      rw [edgeAt, edgeOf, if_pos ⟨hfound, hc⟩, hl]
  | _ =>
    refine ⟨fun h => absurd h (by simp [edgeAt]), ?_⟩
    rintro ⟨_, _, _, he, -⟩
    exact absurd (Sigma.mk.inj he).1 (by simp)

theorem mem_drawnBy (ht : Thread.Reached (installation engine W sealed Fresh) t) {tar src : Str} :
    (tar, src) ∈ drawnBy t ↔ LoadedBy t tar src := by
  rw [drawnBy, List.mem_filterMap]
  constructor
  · rintro ⟨e, he, h⟩
    exact ⟨e, he, (edgeAt_iff ht he).mp h⟩
  · rintro ⟨e, he, h⟩
    exact ⟨e, he, (edgeAt_iff ht he).mpr h⟩

/-- An edge that is owed is what the thread writes next. -/
theorem prog_of_owed (ht : Thread.Reached (installation engine W sealed Fresh) t) {tar src : Str}
    (ho : t.note.owed = some (tar, src)) : ∃ k, t.prog = .op (.depend tar src) k := by
  have hrun := (ht.typed guarded_sealed).running
  cases hprog : t.prog with
  | ret a =>
    rw [hprog] at hrun
    exact absurd (hrun.2.symm.trans ho) (by simp)
  | call c k =>
    rw [hprog] at hrun
    cases c with
    | parse parser src parseMeta => exact absurd hrun.1 id
    | nested parser src parseMeta depth =>
      exact absurd (hrun.1.1.owed.symm.trans ho) (by simp)
  | op o k =>
    rw [hprog] at hrun
    obtain ⟨hproper, hnone | ⟨tar', src', rfl⟩⟩ := (hrun _ (.refl _ _)).1
    · exact absurd (hnone.symm.trans ho) (by simp)
    · obtain ⟨rfl, rfl⟩ := Prod.mk.inj (Option.some.inj ((hproper : _ = _).symm.trans ho))
      exact ⟨k, rfl⟩

/-- What a thread has loaded it has written or writes next. -/
theorem LoadedBy.written (hdeps : options.deps = true)
    (ht : Thread.Reached (installation engine W sealed Fresh) t) {tar src : Str}
    (h : LoadedBy t tar src) :
    (tar, src) ∈ writtenBy t ∨ ∃ k, t.prog = .op (.depend tar src) k := by
  have hd := (mem_drawnBy ht).mpr h
  rw [(balanced hdeps ht).drawn] at hd
  exact (List.mem_append.mp hd).imp_right fun ho => prog_of_owed ht (Option.mem_toList.mp ho)

theorem loadedBy_of_written (hdeps : options.deps = true)
    (ht : Thread.Reached (installation engine W sealed Fresh) t) {tar src : Str}
    (h : (tar, src) ∈ writtenBy t) : LoadedBy t tar src := by
  rw [← mem_drawnBy ht, (balanced hdeps ht).drawn]
  exact List.mem_append_left _ h

def Call.src : Call I → Str
  | .parse _ src _ => src
  | .nested _ src _ _ => src

/-- What an ended parse has loaded is in the graph of its document, and all of it if there is a
value. -/
theorem loadedBy_ended {tree : Str → Parse} (hproc : options.processor = defaultProcessors)
    (htree : Textual engine tree) {S : SourceSet} (hS : S.Serves W)
    (ht : Thread.Reached (installation engine W sealed Fresh) t)
    {answer : Except TabnasError Value} (hdone : t.Done answer) :
    (∀ tar src, LoadedBy t tar src → GraphEdge S engine.float tree t.root.src tar src) ∧
      ∀ v, answer = .ok v → ∀ tar src, LoadedBy t tar src ↔
        GraphEdge S engine.float tree t.root.src tar src := by
  have hlawful : ∀ e ∈ t.events, Lawful S e := by
    refine ht.forall_events (P := Lawful S) fun s o r s' h => ?_
    cases h with
    | resolve hr => exact hS _ _ _ hr
    | _ => exact trivial
  have hevals := (ht.evals (fun _ _ => id) hdone).collects (f := edgeAt options) hlawful
  have hroot : Fresh t.root := ht.top
  simp only [← mem_drawnBy ht]
  cases hc : t.root with
  | nested parser src parseMeta depth =>
    rw [hc] at hroot
    exact absurd hroot id
  | parse parser src parseMeta =>
    rw [hc] at hevals hroot
    have hlast : (metaChain parseMeta).getLast? = sourcePath parseMeta := by
      rw [Unmarked.chain hroot, Unmarked.path hroot]
      rfl
    obtain ⟨d, hd, hout⟩ : ∃ d, drawnBy t = [] ++ d ∧
        Outlines S engine.float tree src (sourcePath parseMeta) (tree src) answer d :=
      draws_parseWithMeta hproc htree hlast hevals
    obtain rfl : drawnBy t = d := hd
    rw [Unmarked.path hroot] at hout
    refine ⟨fun tar src' h => drawn_document.mp (hout.sound _ h), fun v hv tar src' => ?_⟩
    exact ⟨fun h => drawn_document.mp (hout.sound _ h),
      fun h => (hout.complete v hv).2 _ (drawn_document.mpr h)⟩

end Reached

/-! ## Installations that share a sink -/

/-- An installation over a finite source set, with the default processors and a sink. -/
structure Installed (I : Type) where
  options : MultiSourceOptions
  engine : Engine I options.markchar
  store : Store
  refused : Str → Prop
  tree : Str → Parse
  processor_eq : options.processor = defaultProcessors
  deps_eq : options.deps = true
  textual : Textual engine tree

namespace Installed

abbrev system (A : Installed I) : System (sig I) (Shared I) :=
  installation A.engine (A.store.world A.options A.refused) sealed Fresh

/-- The graph of a document. -/
def Edge (A : Installed I) (doc tar src : Str) : Prop :=
  GraphEdge (A.store.sources A.options) A.engine.float A.tree doc tar src

end Installed

/-- The sink with the cells of each installation and the parses started so far. -/
structure Sharing {ι : Type} (A : ι → Installed I) where
  deps : DependencyMap
  cells : ι → Shared I
  threads : List (Σ i, Running (A i).options I)

namespace Sharing

variable {ι : Type} {A : ι → Installed I}

/-- A parse starts, or one takes a step on the cells of its installation and on the sink. -/
inductive Step : Sharing A → Sharing A → Prop
  | start {deps : DependencyMap} {cells : ι → Shared I}
      {ts : List (Σ i, Running (A i).options I)} {i : ι} {c : Call I} : Fresh c →
      Step ⟨deps, cells, ts⟩
        ⟨deps, cells, ts ++ [⟨i, .start (A i).system (ledger (A i).options) c⟩]⟩
  | run {deps : DependencyMap} {cells cells' : ι → Shared I}
      {ts₁ ts₂ : List (Σ i, Running (A i).options I)} {i : ι}
      {t t' : Running (A i).options I} :
      Moves (A i).system { cells i with deps } t (cells' i) t' →
      (∀ j, j ≠ i → cells' j = cells j) →
      Step ⟨deps, cells, ts₁ ++ ⟨i, t⟩ :: ts₂⟩ ⟨(cells' i).deps, cells', ts₁ ++ ⟨i, t'⟩ :: ts₂⟩

/-- The states of all runs from an empty sink. -/
inductive Reachable : Sharing A → Prop
  | init (cells : ι → Shared I) : Reachable ⟨[], cells, []⟩
  | step {p q : Sharing A} : Reachable p → Step p q → Reachable q

/-- The runs of one installation are among these. -/
theorem of_pool (A : Installed I) {s₀ : Shared I} (hs : s₀.deps = []) {p : Parses A.options I}
    (hp : Pool.Reachable A.system s₀ p) :
    Reachable (A := fun _ : Unit => A)
      ⟨p.shared.deps, fun _ => p.shared, p.threads.map (Sigma.mk ())⟩ := by
  induction hp with
  | init =>
    rw [hs]
    exact .init _
  | step _ hs _ ih =>
    apply ih.step
    cases hs with
    | start hc =>
      rw [List.map_append]
      exact .start hc
    | @run s s' ts₁ ts₂ t t' hm =>
      rw [List.map_append, List.map_append, List.map_cons, List.map_cons]
      exact @Step.run I Unit (fun _ => A) s.deps (fun _ => s) (fun _ => s') _ _ () t t' hm
        fun j hj => absurd (Subsingleton.elim j ()) hj

theorem Reachable.reached {p : Sharing A} (hp : Reachable p) :
    ∀ u ∈ p.threads, Thread.Reached (A u.1).system u.2 := by
  induction hp with
  | init => exact fun _ hu => absurd hu List.not_mem_nil
  | step _ hs ih =>
    intro u hu
    cases hs with
    | start hc =>
      rcases List.mem_append.mp hu with hu | hu
      · exact ih u hu
      · rw [List.mem_singleton.mp hu]
        exact .start hc
    | @run _ _ _ _ _ i t _ hm _ =>
      rcases mem_replaced hu with rfl | hu
      · exact .moves (ih ⟨i, t⟩ (List.mem_append_right _ (List.mem_cons_self ..))) hm
      · exact ih u hu

/-- The sink holds the records of the edges written, each under its own two keys. -/
structure Inv (p : Sharing A) : Prop where
  keyed : ∀ tar src d, p.deps.find tar src = some d → d.tar = tar ∧ d.src = src
  written : ∀ tar src, (p.deps.find tar src).isSome = true ↔
    ∃ u ∈ p.threads, (tar, src) ∈ writtenBy u.2

theorem Inv.step {p q : Sharing A} (h : Inv p) (hs : Step p q) : Inv q := by
  obtain ⟨hkeyed, hwritten⟩ := h
  cases hs with
  | start _ =>
    refine ⟨hkeyed, fun tar src => ?_⟩
    rw [hwritten]
    simp only [List.mem_append, List.mem_singleton, or_and_right, exists_or, exists_eq_left]
    exact (or_iff_left List.not_mem_nil).symm
  | @run deps cells cells' ts₁ ts₂ i t t' hm _ =>
    simp only [List.mem_append, List.mem_cons, or_and_right, exists_or, exists_eq_left] at hwritten
    rcases sink_of_moves hm with ⟨hdeps, hw⟩ | ⟨tar', src', wen, hdeps, hw⟩
    · refine ⟨fun tar src d hd => hkeyed tar src d (by rwa [hdeps] at hd), fun tar src => ?_⟩
      simp only [List.mem_append, List.mem_cons, or_and_right, exists_or, exists_eq_left]
      rw [hdeps, hw, hwritten]
    · rw [hdeps]
      refine ⟨fun tar src d hd => ?_, fun tar src => ?_⟩
      · rw [Shared.find_depend] at hd
        split_ifs at hd with he
        · obtain rfl := Option.some.inj hd
          exact he
        · exact hkeyed tar src d hd
      · simp only [List.mem_append, List.mem_cons, or_and_right, exists_or, exists_eq_left, hw,
          Shared.find_depend, List.not_mem_nil, or_false, Prod.mk.injEq]
        split_ifs with he
        · obtain ⟨rfl, rfl⟩ := he
          simp
        · have hne : ¬ (tar = tar' ∧ src = src') := fun h => he ⟨h.1.symm, h.2.symm⟩
          rw [hwritten]
          simp [hne]

theorem Reachable.inv {p : Sharing A} (hp : Reachable p) : Inv p := by
  induction hp with
  | init => exact ⟨fun _ _ _ hd => absurd hd (by simp [DependencyMap.find]),
      fun tar src => by simp [DependencyMap.find]⟩
  | step _ hs ih => exact ih.step hs

end Sharing

/-- In every state of every run of any number of parses, of any number of installations that share
one sink: a record is under its own two keys, and it is there for a load. A load that is not
recorded is recorded by the next step of its parse, and no step takes a record away, so when all
parses have ended the sink holds exactly the loads. Those of an ended parse are edges of the graph
of its document, and all of them if it has a value. -/
theorem sink_is_load_edges {ι : Type} {A : ι → Installed I} {p : Sharing A}
    (hp : Sharing.Reachable p) :
    (∀ tar src d, p.deps.find tar src = some d → d.tar = tar ∧ d.src = src) ∧
    (∀ tar src, (p.deps.find tar src).isSome = true → ∃ u ∈ p.threads, LoadedBy u.2 tar src) ∧
    (∀ u ∈ p.threads, ∀ tar src, LoadedBy u.2 tar src →
      (p.deps.find tar src).isSome = true ∨ ∃ k, u.2.prog = .op (.depend tar src) k) ∧
    (∀ q, Sharing.Step p q → ∀ tar src,
      (p.deps.find tar src).isSome = true → (q.deps.find tar src).isSome = true) ∧
    ((∀ u ∈ p.threads, ∃ answer, u.2.Done answer) → ∀ tar src,
      (p.deps.find tar src).isSome = true ↔ ∃ u ∈ p.threads, LoadedBy u.2 tar src) ∧
    ∀ u ∈ p.threads, ∀ answer, u.2.Done answer →
      (∀ tar src, LoadedBy u.2 tar src → (A u.1).Edge u.2.root.src tar src) ∧
      ∀ v, answer = .ok v → ∀ tar src,
        LoadedBy u.2 tar src ↔ (A u.1).Edge u.2.root.src tar src := by
  have hloaded (tar src : Str) (h : (p.deps.find tar src).isSome = true) :
      ∃ u ∈ p.threads, LoadedBy u.2 tar src := by
    obtain ⟨u, hu, hw⟩ := (hp.inv.written tar src).mp h
    exact ⟨u, hu, loadedBy_of_written (A u.1).deps_eq (hp.reached u hu) hw⟩
  have hrecorded (u : Σ i, Running (A i).options I) (hu : u ∈ p.threads) (tar src : Str)
      (h : LoadedBy u.2 tar src) :
      (p.deps.find tar src).isSome = true ∨ ∃ k, u.2.prog = .op (.depend tar src) k :=
    (h.written (A u.1).deps_eq (hp.reached u hu)).imp_left
      fun hw => (hp.inv.written tar src).mpr ⟨u, hu, hw⟩
  refine ⟨hp.inv.keyed, hloaded, hrecorded, fun q hq tar src h => ?_, fun hall tar src =>
    ⟨hloaded tar src, ?_⟩, fun u hu answer hdone => ?_⟩
  · cases hq with
    | start _ => exact h
    | run hm _ => exact find_mono hm h
  · rintro ⟨u, hu, h⟩
    obtain ⟨answer, hprog, -⟩ := hall u hu
    refine (hrecorded u hu tar src h).resolve_right ?_
    rintro ⟨k, hk⟩
    exact absurd (hprog.symm.trans hk) (by simp)
  · exact loadedBy_ended (A u.1).processor_eq (A u.1).textual
      ((A u.1).store.serves (A u.1).options (A u.1).refused) (hp.reached u hu) hdone

/-- The small engine over the leaf, with a sink. -/
abbrev leafInstalled : Installed Bool where
  options := { MultiSourceOptions.new with deps := true }
  engine := aloneEngine
  store := .map leafFiles
  refused := granted
  tree := parseAlone
  processor_eq := rfl
  deps_eq := rfl
  textual _ _ _ := rfl

/-- Two documents with the same reference, parsed in turns. -/
def twoLoads : Parses leafInstalled.options Bool :=
  ((List.range 24).map (· % 2)).foldl
    (Pool.turn leafInstalled.system (answer (leafInstalled.store.resolve leafInstalled.options)))
    ⟨Shared.init, [.start leafInstalled.system _ (.parse true "@a".toList .undefined),
      .start leafInstalled.system _ (.parse false "@a".toList .undefined)]⟩

theorem twoLoads_reachable : Pool.Reachable leafInstalled.system Shared.init twoLoads := by
  have hfresh (parser : Bool) : Fresh (Call.parse parser "@a".toList .undefined) := rfl
  exact Pool.ReachableBy.turns (handles_answer _ _) (.step (.step .init (.start (hfresh true))
    trivial) (.start (hfresh false)) trivial) (Pool.keeps_trivial _ _)

/-- Nothing is left to run and there is a value. -/
def isValue : Program Bool (Except TabnasError Value) → Bool
  | .ret (.ok _) => true
  | _ => false

theorem eq_ret_of_isValue {p : Program Bool (Except TabnasError Value)} (h : isValue p = true) :
    ∃ v, p = .ret (.ok v) := by
  unfold isValue at h
  split at h
  · exact ⟨_, rfl⟩
  · exact absurd h (by simp)

theorem twoLoads_done {t : Running leafInstalled.options Bool} (ht : t ∈ twoLoads.threads) :
    t.root.src = "@a".toList ∧ ∃ v, t.Done (.ok v) := by
  have hran : twoLoads.threads.all (fun t => t.root.src = "@a".toList && t.callers.isEmpty &&
      isValue t.prog) = true := by
    decide +kernel
  have h := List.all_eq_true.mp hran t ht
  simp only [Bool.and_eq_true, List.isEmpty_iff, decide_eq_true_eq] at h
  obtain ⟨⟨hsrc, hcallers⟩, hprog⟩ := h
  obtain ⟨v, hv⟩ := eq_ret_of_isValue hprog
  exact ⟨hsrc, v, hv, hcallers⟩

/-- The sink holds the one edge of the two documents, and edges of theirs only. -/
theorem sink_is_load_edges_twoLoads :
    (twoLoads.shared.deps.find TOP "a.jsonic".toList).isSome = true ∧
      ∀ tar src, (twoLoads.shared.deps.find tar src).isSome = true →
        leafInstalled.Edge "@a".toList tar src := by
  obtain ⟨-, hloaded, -, -, hiff, hended⟩ :=
    sink_is_load_edges (Sharing.of_pool leafInstalled rfl twoLoads_reachable)
  simp only [List.forall_mem_map] at hiff hended
  refine ⟨?_, fun tar src h => ?_⟩
  · obtain ⟨t, ht⟩ := List.exists_mem_of_length_pos
      (by decide +kernel : 0 < twoLoads.threads.length)
    obtain ⟨hsrc, v, hv⟩ := twoLoads_done ht
    refine (hiff (fun t ht => ⟨_, (twoLoads_done ht).2.choose_spec⟩) _ _).mpr
      ⟨_, List.mem_map_of_mem ht, ((hended t ht _ hv).2 v rfl _ _).mpr ?_⟩
    rw [hsrc]
    exact ⟨none, ⟨[], .nil, rfl⟩, ⟨_, .here, by decide +kernel⟩, rfl⟩
  · obtain ⟨u, hu, h⟩ := hloaded tar src h
    obtain ⟨t, ht, rfl⟩ := List.mem_map.mp hu
    obtain ⟨hsrc, v, hv⟩ := twoLoads_done ht
    rw [← hsrc]
    exact (hended t ht _ hv).1 tar src h

end MultiSource
