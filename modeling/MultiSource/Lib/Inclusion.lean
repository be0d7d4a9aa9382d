import Mathlib.Data.List.Chain
import Mathlib.Data.List.Nodup
import Mathlib.Logic.Relation

/-!
# Texts that include each other

A text is read up to its first reference, the reference is loaded, and what follows may depend on
the value it had. Texts stand under keys, and what a reference means depends on the text it is in.

`Loads` is the depth-first loader that refuses a key it is inside of already. It is compared with
the graph of references: `Trail` follows references from a text, and a text loads if and only if it
is `Sound`: no trail from it is broken, and none comes back to where it was.
-/

namespace Inclusion

variable {K R V E : Type}

/-- A walk from no key over the keys of a relation. -/
inductive Walk (step : Option K → K → Prop) : List K → Prop
  | nil : Walk step []
  | snoc {walk : List K} {k : K} : Walk step walk → step walk.getLast? k → Walk step (walk ++ [k])

section Walk

variable {step : Option K → K → Prop} {walk walk' : List K} {k : K}

theorem Walk.of_concat (h : Walk step (walk ++ [k])) : Walk step walk ∧ step walk.getLast? k := by
  generalize he : walk ++ [k] = w at h
  cases h with
  | nil => simp at he
  | snoc h hs =>
    obtain ⟨rfl, hk⟩ := List.append_inj' he rfl
    obtain rfl := List.singleton_injective hk
    exact ⟨h, hs⟩

theorem Walk.of_append (h : Walk step (walk ++ walk')) : Walk step walk := by
  induction walk' using List.reverseRecOn with
  | nil => rwa [List.append_nil] at h
  | append_singleton walk' k ih =>
    rw [← List.append_assoc] at h
    exact ih h.of_concat.1

/-- Each key of a walk steps to the next. -/
theorem Walk.isChain (h : Walk step walk) : walk.IsChain fun j k => step (some j) k := by
  induction h with
  | nil => exact .nil
  | snoc _ hs ih =>
    refine List.isChain_append.mpr ⟨ih, .singleton _, fun j hj k hk => ?_⟩
    obtain rfl := Option.some.inj (List.head?_singleton ▸ hk : some _ = some k)
    rw [Option.mem_def] at hj
    rwa [hj] at hs

end Walk

/-- A text by its references in order. -/
inductive Text (R V E : Type) : Type
  | done (result : Except E V)
  | refer (ref : R) (next : V → Text R V E)

/-- The texts under keys, with the key a reference means in the text under a key, or in one that is
under none. -/
structure Library (K R V E : Type) where
  text : K → Text R V E
  names : Option K → R → Option K

/-- A place in the course of loading: where a text stands, and the text. -/
abbrev Place (K R V E : Type) : Type := Option K × Text R V E

namespace Library

variable (L : Library K R V E)

/-- The text under a key, at its place. -/
def place (k : K) : Place K R V E := (some k, L.text k)

/-! ## Results -/

/-- What a text comes to by itself, where every reference in it has a value. -/
inductive Ends : Place K R V E → Except E V → Prop
  | done {a : Option K} {result : Except E V} : Ends (a, .done result) result
  | refer {a : Option K} {ref : R} {next : V → Text R V E} {k : K} {v : V} {result : Except E V} :
      L.names a ref = some k → Ends (L.place k) (.ok v) → Ends (a, next v) result →
      Ends (a, .refer ref next) result

/-- The reference is met in the text: those before it have values. -/
inductive Inside : Place K R V E → R → Prop
  | here {a : Option K} {ref : R} {next : V → Text R V E} : Inside (a, .refer ref next) ref
  | later {a : Option K} {ref ref' : R} {next : V → Text R V E} {k : K} {v : V} :
      L.names a ref = some k → L.Ends (L.place k) (.ok v) → Inside (a, next v) ref' →
      Inside (a, .refer ref next) ref'

/-- What goes wrong: an error of a text's own, a reference to nothing, or one to a key in the
chain of those being loaded. -/
inductive Fault (K R E : Type) : Type
  | own (place : Option K) (error : E)
  | missing (place : Option K) (ref : R)
  | cycle (chain : List K) (key : K)

/-- The loader, inside a chain of keys: the edges it follows, in order, and what it comes to. -/
inductive Loads : List K → Place K R V E → List (Option K × K) → Except (Fault K R E) V → Prop
  | value {c : List K} {a : Option K} {v : V} : Loads c (a, .done (.ok v)) [] (.ok v)
  | own {c : List K} {a : Option K} {e : E} :
      Loads c (a, .done (.error e)) [] (.error (.own a e))
  | missing {c : List K} {a : Option K} {ref : R} {next : V → Text R V E} :
      L.names a ref = none → Loads c (a, .refer ref next) [] (.error (.missing a ref))
  | cycle {c : List K} {a : Option K} {ref : R} {next : V → Text R V E} {k : K} :
      L.names a ref = some k → k ∈ c → Loads c (a, .refer ref next) [] (.error (.cycle c k))
  | fails {c : List K} {a : Option K} {ref : R} {next : V → Text R V E} {k : K}
      {es : List (Option K × K)} {f : Fault K R E} :
      L.names a ref = some k → k ∉ c → Loads (c ++ [k]) (L.place k) es (.error f) →
      Loads c (a, .refer ref next) ((a, k) :: es) (.error f)
  | next {c : List K} {a : Option K} {ref : R} {next : V → Text R V E} {k : K} {v : V}
      {es es' : List (Option K × K)} {o : Except (Fault K R E) V} :
      L.names a ref = some k → k ∉ c → Loads (c ++ [k]) (L.place k) es (.ok v) →
      Loads c (a, next v) es' o → Loads c (a, .refer ref next) ((a, k) :: es ++ es') o

/-- What one reference comes to by itself. -/
inductive Visits (c : List K) (a : Option K) (ref : R) :
    List (Option K × K) → Except (Fault K R E) V → Prop
  | missing : L.names a ref = none → Visits c a ref [] (.error (.missing a ref))
  | cycle {k : K} : L.names a ref = some k → k ∈ c → Visits c a ref [] (.error (.cycle c k))
  | load {k : K} {es : List (Option K × K)} {o : Except (Fault K R E) V} :
      L.names a ref = some k → k ∉ c → L.Loads (c ++ [k]) (L.place k) es o →
      Visits c a ref ((a, k) :: es) o

variable {L} {p : Place K R V E} {c : List K}

theorem Visits.stop {a : Option K} {ref : R} {es : List (Option K × K)} {f : Fault K R E}
    (h : L.Visits c a ref es (.error f)) (next : V → Text R V E) :
    L.Loads c (a, .refer ref next) es (.error f) := by
  cases h with
  | missing hn => exact .missing hn
  | cycle hn hm => exact .cycle hn hm
  | load hn hm h => exact .fails hn hm h

theorem Visits.next {a : Option K} {ref : R} {es es' : List (Option K × K)} {v : V}
    {next : V → Text R V E} {o : Except (Fault K R E) V} (h : L.Visits c a ref es (.ok v))
    (h' : L.Loads c (a, next v) es' o) : L.Loads c (a, .refer ref next) (es ++ es') o := by
  cases h with
  | load hn hm h => exact .next hn hm h h'

theorem Ends.unique {result result' : Except E V} (h : L.Ends p result) (h' : L.Ends p result') :
    result = result' := by
  induction h generalizing result' with
  | done =>
    cases h'
    rfl
  | refer hn _ _ ih ih' =>
    cases h' with
    | refer hn' hv hw =>
      obtain rfl := Option.some.inj (hn.symm.trans hn')
      obtain rfl := Except.ok.inj (ih hv)
      exact ih' hw

theorem Loads.ends {es : List (Option K × K)} {o : Except (Fault K R E) V} {v : V}
    (h : L.Loads c p es o) (ho : o = .ok v) : L.Ends p (.ok v) := by
  induction h generalizing v with
  | value =>
    obtain rfl := Except.ok.inj ho
    exact .done
  | own => cases ho
  | missing => cases ho
  | cycle => cases ho
  | fails => cases ho
  | next hn _ _ _ ih ih' => exact .refer hn (ih rfl) (ih' ho)

/-- One text below one chain loads in one way. -/
theorem Loads.unique {es es' : List (Option K × K)} {o o' : Except (Fault K R E) V}
    (h : L.Loads c p es o) (h' : L.Loads c p es' o') : es = es' ∧ o = o' := by
  induction h generalizing es' o' with
  | value =>
    cases h'
    exact ⟨rfl, rfl⟩
  | own =>
    cases h'
    exact ⟨rfl, rfl⟩
  | missing hn =>
    cases h' with
    | missing => exact ⟨rfl, rfl⟩
    | cycle hn' => cases hn.symm.trans hn'
    | fails hn' => cases hn.symm.trans hn'
    | next hn' => cases hn.symm.trans hn'
  | cycle hn hm =>
    cases h' with
    | missing hn' => cases hn.symm.trans hn'
    | cycle hn' =>
      obtain rfl := Option.some.inj (hn.symm.trans hn')
      exact ⟨rfl, rfl⟩
    | fails hn' hm' =>
      obtain rfl := Option.some.inj (hn.symm.trans hn')
      exact absurd hm hm'
    | next hn' hm' =>
      obtain rfl := Option.some.inj (hn.symm.trans hn')
      exact absurd hm hm'
  | fails hn hm _ ih =>
    cases h' with
    | missing hn' => cases hn.symm.trans hn'
    | cycle hn' hm' =>
      obtain rfl := Option.some.inj (hn.symm.trans hn')
      exact absurd hm' hm
    | fails hn' _ h' =>
      obtain rfl := Option.some.inj (hn.symm.trans hn')
      obtain ⟨rfl, ho⟩ := ih h'
      exact ⟨rfl, by rw [Except.error.inj ho]⟩
    | next hn' _ h' =>
      obtain rfl := Option.some.inj (hn.symm.trans hn')
      cases (ih h').2
  | next hn hm _ _ ih ih' =>
    cases h' with
    | missing hn' => cases hn.symm.trans hn'
    | cycle hn' hm' =>
      obtain rfl := Option.some.inj (hn.symm.trans hn')
      exact absurd hm' hm
    | fails hn' _ h' =>
      obtain rfl := Option.some.inj (hn.symm.trans hn')
      cases (ih h').2
    | next hn' _ h' h'' =>
      obtain rfl := Option.some.inj (hn.symm.trans hn')
      obtain ⟨rfl, hv⟩ := ih h'
      obtain rfl := Except.ok.inj hv
      obtain ⟨rfl, rfl⟩ := ih' h''
      exact ⟨rfl, rfl⟩

/-! ## The graph of references -/

variable (L)

/-- A reference in the text at `p` means the text under `k`. -/
def Refers (p : Place K R V E) (k : K) : Prop := ∃ ref, L.Inside p ref ∧ L.names p.1 ref = some k

/-- One key's text refers to another key. -/
def RefersTo (j k : K) : Prop := L.Refers (L.place j) k

/-- Where a chain of keys from `p` ends. -/
def last (p : Place K R V E) (trail : List K) : Place K R V E :=
  (trail.getLast?.map L.place).getD p

/-- The keys that a chain of references from `p` passes through. -/
abbrev Trail (p : Place K R V E) : List K → Prop :=
  Walk fun j k => L.Refers ((j.map L.place).getD p) k

/-- A chain of references from `p` leads to the key. -/
def Reached (p : Place K R V E) (k : K) : Prop := ∃ trail, L.Trail p (trail ++ [k])

/-- The text at `p` can be loaded inside the chain `c`: every reference met means something, every
text met ends well, and none is of the chain or leads back to itself. -/
structure Sound (c : List K) (p : Place K R V E) : Prop where
  named : ∀ trail ref, L.Trail p trail → L.Inside (L.last p trail) ref →
    L.names (L.last p trail).1 ref ≠ none
  whole : ∀ trail e, L.Trail p trail → ¬ L.Ends (L.last p trail) (.error e)
  fresh : ∀ k, L.Reached p k → k ∉ c
  acyclic : ∀ k, L.Reached p k → ¬ Relation.TransGen L.RefersTo k k

/-- The edges of the graph that can be reached from `p`. -/
def Edge (p : Place K R V E) (e : Option K × K) : Prop :=
  ∃ trail, L.Trail p trail ∧ (L.last p trail).1 = e.1 ∧ L.Refers (L.last p trail) e.2

variable {L}

@[simp] theorem last_nil (p : Place K R V E) : L.last p [] = p := rfl

@[simp] theorem last_concat (p : Place K R V E) (trail : List K) (k : K) :
    L.last p (trail ++ [k]) = L.place k := by
  simp [last]

theorem Reached.of_refers {k : K} (h : L.Refers p k) : L.Reached p k := ⟨[], .snoc .nil h⟩

theorem Reached.step {j k : K} (h : L.Reached p j) (hr : L.RefersTo j k) : L.Reached p k := by
  obtain ⟨trail, h⟩ := h
  refine ⟨trail ++ [j], .snoc h ?_⟩
  rwa [List.getLast?_concat]

theorem Trail.reached {trail : List K} {k : K} (h : L.Trail p trail) (hk : k ∈ trail) :
    L.Reached p k := by
  obtain ⟨before, after, rfl⟩ := List.append_of_mem hk
  rw [List.append_cons] at h
  exact ⟨before, h.of_append⟩

/-! ## Where a load goes wrong -/

/-- What a fault says of the graph. -/
inductive Blames (L : Library K R V E) (c : List K) (p : Place K R V E) : Fault K R E → Prop
  | own {trail : List K} {e : E} : L.Trail p trail → L.Ends (L.last p trail) (.error e) →
      Blames L c p (.own (L.last p trail).1 e)
  | missing {trail : List K} {ref : R} : L.Trail p trail → L.Inside (L.last p trail) ref →
      L.names (L.last p trail).1 ref = none → Blames L c p (.missing (L.last p trail).1 ref)
  | cycle {trail : List K} {k : K} : L.Trail p trail → L.Refers (L.last p trail) k →
      k ∈ c ++ trail → Blames L c p (.cycle (c ++ trail) k)

/-- The references of a text, from some point on, are references of the text at the end of a trail,
and so is its end. -/
structure Rests (L : Library K R V E) (p rest : Place K R V E) : Prop where
  here : rest.1 = p.1
  inside : ∀ ref, L.Inside rest ref → L.Inside p ref
  ends : ∀ result, L.Ends rest result → L.Ends p result

theorem Rests.refl (p : Place K R V E) : Rests L p p := ⟨rfl, fun _ => id, fun _ => id⟩

theorem Rests.next {a : Option K} {ref : R} {next : V → Text R V E} {k : K} {v : V}
    (h : Rests L p (a, .refer ref next)) (hn : L.names a ref = some k)
    (hv : L.Ends (L.place k) (.ok v)) : Rests L p (a, next v) :=
  ⟨h.here, fun _ hi => h.inside _ (.later hn hv hi), fun _ he => h.ends _ (.refer hn hv he)⟩

theorem Rests.refers {a : Option K} {ref : R} {next : V → Text R V E} {k : K}
    (h : Rests L p (a, .refer ref next)) (hn : L.names a ref = some k) : L.Refers p k :=
  ⟨ref, h.inside _ .here, h.here ▸ hn⟩

theorem Rests.concat (root : Place K R V E) (trail : List K) (k : K) :
    Rests L (L.last root (trail ++ [k])) (L.place k) := by
  rw [last_concat]
  exact .refl _

theorem Loads.blames {root : Place K R V E} {c₀ trail : List K} {es : List (Option K × K)}
    {o : Except (Fault K R E) V} {f : Fault K R E} (h : L.Loads c p es o) (ho : o = .error f)
    (hc : c = c₀ ++ trail) (ht : L.Trail root trail) (hr : Rests L (L.last root trail) p) :
    Blames L c₀ root f := by
  induction h generalizing trail f with
  | value => cases ho
  | own =>
    obtain rfl := Except.error.inj ho
    obtain rfl : _ = _ := hr.here
    exact .own ht (hr.ends _ .done)
  | missing hn =>
    obtain rfl := Except.error.inj ho
    obtain rfl : _ = _ := hr.here
    exact .missing ht (hr.inside _ .here) hn
  | cycle hn hm =>
    obtain rfl := Except.error.inj ho
    subst hc
    exact .cycle ht (hr.refers hn) hm
  | @fails _ _ _ _ k _ _ hn _ _ ih =>
    subst hc
    exact ih ho (List.append_assoc ..) (ht.snoc (hr.refers hn)) (.concat ..)
  | next hn _ hv _ _ ih =>
    exact ih ho hc ht (hr.next hn (hv.ends rfl))

/-- A chain of references that comes back to one of its keys is a loop. -/
theorem Trail.loop {trail : List K} {k : K} (h : L.Trail p trail)
    (hr : L.Refers (L.last p trail) k) (hm : k ∈ trail) :
    L.Reached p k ∧ Relation.TransGen L.RefersTo k k := by
  obtain ⟨before, after, rfl⟩ := List.append_of_mem hm
  have hchain : (k :: after).IsChain L.RefersTo := h.isChain.suffix (List.suffix_append ..)
  have hlast : L.last p (before ++ k :: after) = L.place ((k :: after).getLast (by simp)) := by
    rw [last, List.getLast?_append_of_ne_nil _ (by simp), List.getLast?_eq_some_getLast (by simp)]
    rfl
  rw [hlast] at hr
  rw [List.append_cons] at h
  refine ⟨⟨before, h.of_append⟩, ?_⟩
  exact .tail' (List.relationReflTransGen_of_exists_isChain_cons after hchain rfl) hr

theorem Sound.not_blames {f : Fault K R E} (h : L.Sound c p) : ¬ Blames L c p f := by
  intro hf
  cases hf with
  | own ht he => exact h.whole _ _ ht he
  | missing ht hi hn => exact h.named _ _ ht hi hn
  | cycle ht hr hm =>
    rcases List.mem_append.mp hm with hm | hm
    · exact h.fresh _ ⟨_, ht.snoc hr⟩ hm
    · obtain ⟨hk, hloop⟩ := ht.loop hr hm
      exact h.acyclic _ hk hloop

/-! ## What a load says -/

/-- A text that loads has loaded everything that is met in it. -/
theorem Loads.inside {es : List (Option K × K)} {v : V} {ref : R} (h : L.Loads c p es (.ok v))
    (hi : L.Inside p ref) : ∃ k es' w, L.names p.1 ref = some k ∧ k ∉ c ∧
      L.Loads (c ++ [k]) (L.place k) es' (.ok w) ∧ (p.1, k) ∈ es ∧ es' ⊆ es := by
  induction hi generalizing es with
  | here =>
    cases h with
    | next hn hm hv _ =>
      refine ⟨_, _, _, hn, hm, hv, List.mem_cons_self .., ?_⟩
      exact List.Subset.trans (List.subset_append_left ..) (List.subset_cons_self ..)
  | later hn he _ ih =>
    cases h with
    | next hn' _ hv h =>
      obtain rfl := Option.some.inj (hn.symm.trans hn')
      obtain rfl := Except.ok.inj (he.unique (hv.ends rfl))
      obtain ⟨k, es', w, hk, hm, hl, hmem, hsub⟩ := ih h
      exact ⟨k, es', w, hk, hm, hl, List.mem_cons_of_mem _ (List.mem_append_right _ hmem),
        List.Subset.trans hsub
          (List.Subset.trans (List.subset_append_right ..) (List.subset_cons_self ..))⟩

theorem Loads.refers {es : List (Option K × K)} {v : V} {k : K} (h : L.Loads c p es (.ok v))
    (hr : L.Refers p k) : k ∉ c ∧ (p.1, k) ∈ es ∧
      ∃ es' w, L.Loads (c ++ [k]) (L.place k) es' (.ok w) ∧ es' ⊆ es := by
  obtain ⟨ref, hi, hn⟩ := hr
  obtain ⟨k', es', w, hn', hm, hl, hmem, hsub⟩ := h.inside hi
  obtain rfl := Option.some.inj (hn.symm.trans hn')
  exact ⟨hm, hmem, es', w, hl, hsub⟩

theorem Loads.trail {es : List (Option K × K)} {v : V} {trail : List K}
    (h : L.Loads c p es (.ok v)) (ht : L.Trail p trail) :
    ∃ es' w, L.Loads (c ++ trail) (L.last p trail) es' (.ok w) ∧ es' ⊆ es := by
  induction ht with
  | nil => exact ⟨es, v, by rwa [List.append_nil], List.Subset.refl _⟩
  | snoc _ hr ih =>
    obtain ⟨es', w, hl, hsub⟩ := ih
    obtain ⟨-, -, es'', w', hl', hsub'⟩ := hl.refers hr
    rw [last_concat, ← List.append_assoc]
    exact ⟨es'', w', hl', List.Subset.trans hsub' hsub⟩

/-- Down the references of a text that loads, the chain only grows. -/
theorem Loads.descend {es : List (Option K × K)} {v : V} {j k : K}
    (h : L.Loads c (L.place j) es (.ok v)) (hjk : Relation.ReflTransGen L.RefersTo j k) :
    ∃ c' es' w, c ⊆ c' ∧ L.Loads c' (L.place k) es' (.ok w) := by
  induction hjk with
  | refl => exact ⟨c, es, v, List.Subset.refl _, h⟩
  | tail _ hr ih =>
    obtain ⟨c', es', w, hsub, hl⟩ := ih
    obtain ⟨-, -, es'', w', hl', -⟩ := hl.refers hr
    exact ⟨_, es'', w', List.subset_append_of_subset_left _ hsub, hl'⟩

theorem Loads.sound {es : List (Option K × K)} {v : V} (h : L.Loads c p es (.ok v)) :
    L.Sound c p where
  named trail ref ht hi := by
    obtain ⟨es', w, hl, -⟩ := h.trail ht
    obtain ⟨k, -, -, hn, -⟩ := hl.inside hi
    rw [hn]
    exact Option.some_ne_none k
  whole trail e ht he := by
    obtain ⟨es', w, hl, -⟩ := h.trail ht
    cases he.unique (hl.ends rfl)
  fresh k hk := by
    obtain ⟨trail, ht⟩ := hk
    generalize he : trail ++ [k] = t at ht
    cases ht with
    | nil => simp at he
    | snoc ht hr =>
      obtain ⟨rfl, hk⟩ := List.append_inj' he rfl
      obtain rfl := List.singleton_inj.mp hk
      obtain ⟨es', w, hl, -⟩ := h.trail ht
      exact fun hm => (hl.refers hr).1 (List.mem_append_left _ hm)
  acyclic k hk hloop := by
    obtain ⟨trail, ht⟩ := hk
    obtain ⟨es', w, hl, -⟩ := h.trail ht
    rw [last_concat, ← List.append_assoc] at hl
    obtain ⟨j, hkj, hjk⟩ := Relation.TransGen.tail'_iff.mp hloop
    obtain ⟨c', es'', w', hsub, hj⟩ := hl.descend hkj
    exact (hj.refers hjk).1 (hsub (List.mem_append_right _ (List.mem_singleton_self k)))

/-- The edges followed are edges of the graph, and all of them if the text loads. -/
theorem Loads.edges_subset {root : Place K R V E} {trail : List K} {es : List (Option K × K)}
    {o : Except (Fault K R E) V} (h : L.Loads c p es o) (ht : L.Trail root trail)
    (hr : Rests L (L.last root trail) p) : ∀ e ∈ es, L.Edge root e := by
  induction h generalizing trail with
  | value => exact fun _ he => absurd he List.not_mem_nil
  | own => exact fun _ he => absurd he List.not_mem_nil
  | missing => exact fun _ he => absurd he List.not_mem_nil
  | cycle => exact fun _ he => absurd he List.not_mem_nil
  | fails hn _ _ ih =>
    intro e he
    rcases List.mem_cons.mp he with rfl | he
    · exact ⟨trail, ht, hr.here.symm, hr.refers hn⟩
    · exact ih (ht.snoc (hr.refers hn)) (.concat ..) e he
  | next hn _ hv _ ih ih' =>
    intro e he
    rcases List.mem_cons.mp he with rfl | he
    · exact ⟨trail, ht, hr.here.symm, hr.refers hn⟩
    rcases List.mem_append.mp he with he | he
    · exact ih (ht.snoc (hr.refers hn)) (.concat ..) e he
    · exact ih' ht (hr.next hn (hv.ends rfl)) e he

theorem Loads.edges {es : List (Option K × K)} {v : V} (h : L.Loads c p es (.ok v))
    (e : Option K × K) : e ∈ es ↔ L.Edge p e := by
  refine ⟨h.edges_subset .nil (.refl _) e, ?_⟩
  rintro ⟨trail, ht, he, hr⟩
  obtain ⟨es', w, hl, hsub⟩ := h.trail ht
  have hmem := (hl.refers hr).2.1
  rw [he] at hmem
  exact hsub hmem

/-! ## Every text of a finite library loads -/

variable (L) in
/-- References mean one of finitely many keys. -/
def Finite : Prop := ∃ keys : List K, ∀ a ref k, L.names a ref = some k → k ∈ keys

open Classical in
theorem length_fresh_lt {keys c : List K} {k : K} (hk : k ∈ keys) (hc : k ∉ c) :
    (keys.filter (· ∉ c ++ [k])).length < (keys.filter (· ∉ c)).length := by
  have he : keys.filter (· ∉ c ++ [k]) = (keys.filter (· ∉ c)).filter (· ≠ k) := by
    rw [List.filter_filter]
    apply List.filter_congr
    intro j _
    by_cases hj : j = k <;> simp [hj]
  rw [he]
  apply List.length_filter_lt_length_iff_exists.mpr
  exact ⟨k, List.mem_filter.mpr ⟨hk, by simpa using hc⟩, by simp⟩

open Classical in
/-- The loader ends where references lead to finitely many keys: each load puts a new one on the
chain. -/
theorem exists_loads_of_reached {root : Place K R V E} {trail keys : List K}
    (hkeys : ∀ k, L.Reached root k → k ∈ keys) (c : List K) (ht : L.Trail root trail)
    (hr : Rests L (L.last root trail) p) : ∃ es o, L.Loads c p es o := by
  generalize hn : (keys.filter (· ∉ c)).length = n
  induction n using Nat.strong_induction_on generalizing c p trail with
  | _ n ih =>
    obtain ⟨a, text⟩ := p
    induction text with
    | done result =>
      cases result with
      | ok v => exact ⟨[], _, .value⟩
      | error e => exact ⟨[], _, .own⟩
    | refer ref next ihtext =>
      cases hname : L.names a ref with
      | none => exact ⟨[], _, .missing hname⟩
      | some k =>
        by_cases hm : k ∈ c
        · exact ⟨[], _, .cycle hname hm⟩
        · have hreached : L.Reached root k := ⟨trail, ht.snoc (hr.refers hname)⟩
          have hlt : (keys.filter (· ∉ c ++ [k])).length < n :=
            hn ▸ length_fresh_lt (hkeys k hreached) hm
          obtain ⟨es, o, hl⟩ := ih _ hlt (c ++ [k]) (ht.snoc (hr.refers hname)) (.concat ..) rfl
          cases o with
          | error f => exact ⟨_, _, .fails hname hm hl⟩
          | ok v =>
            obtain ⟨es', o, hl'⟩ := ihtext v (hr.next hname (hl.ends rfl))
            exact ⟨_, _, .next hname hm hl hl'⟩

theorem Finite.reached (hfin : L.Finite) (p : Place K R V E) :
    ∃ keys : List K, ∀ k, L.Reached p k → k ∈ keys := by
  obtain ⟨keys, hkeys⟩ := hfin
  refine ⟨keys, fun k ⟨trail, ht⟩ => ?_⟩
  generalize he : trail ++ [k] = t at ht
  cases ht with
  | nil => simp at he
  | snoc ht hr =>
    obtain ⟨rfl, hk⟩ := List.append_inj' he rfl
    obtain rfl := List.singleton_inj.mp hk
    obtain ⟨ref, -, hn⟩ := hr
    exact hkeys _ _ _ hn

theorem exists_loads (hfin : L.Finite) (c : List K) (p : Place K R V E) :
    ∃ es o, L.Loads c p es o := by
  obtain ⟨keys, hkeys⟩ := hfin.reached p
  exact exists_loads_of_reached hkeys c .nil (.refl p)

/-- In a finite library a text loads exactly if it is sound. -/
theorem loads_iff_sound (hfin : L.Finite) :
    (∃ es v, L.Loads c p es (.ok v)) ↔ L.Sound c p := by
  constructor
  · rintro ⟨es, v, h⟩
    exact h.sound
  · intro hs
    obtain ⟨es, o, h⟩ := exists_loads hfin c p
    cases o with
    | ok v => exact ⟨es, v, h⟩
    | error f => exact absurd (h.blames rfl (List.append_nil c).symm .nil (.refl _)) hs.not_blames

/-! ## Two libraries -/

section Simulation

variable {R' E' : Type} (L : Library K R V E) (L' : Library K R' V E') (ρ : R → R' → Prop)
  (ε : E → E' → Prop)

/-- The texts read alike, up to how they spell references and errors. -/
inductive Alike : Text R V E → Text R' V E' → Prop
  | value (v : V) : Alike (.done (.ok v)) (.done (.ok v))
  | error {e : E} {e' : E'} : ε e e' → Alike (.done (.error e)) (.done (.error e'))
  | refer {ref : R} {ref' : R'} {next : V → Text R V E} {next' : V → Text R' V E'} :
      ρ ref ref' → (∀ v, Alike (next v) (next' v)) → Alike (.refer ref next) (.refer ref' next')

/-- The loads come to the same, up to how they spell references and errors. -/
inductive Matches : Except (Fault K R E) V → Except (Fault K R' E') V → Prop
  | value (v : V) : Matches (.ok v) (.ok v)
  | own {a : Option K} {e : E} {e' : E'} : ε e e' →
      Matches (.error (.own a e)) (.error (.own a e'))
  | missing {a : Option K} {ref : R} {ref' : R'} : ρ ref ref' →
      Matches (.error (.missing a ref)) (.error (.missing a ref'))
  | cycle (c : List K) (k : K) : Matches (.error (.cycle c k)) (.error (.cycle c k))

/-- Where references lead from `root`, the libraries hold texts that read alike, and references mean
the same. -/
structure Simulates (root : Place K R V E) : Prop where
  names : ∀ trail ref ref', L.Trail root trail → L.Inside (L.last root trail) ref → ρ ref ref' →
    L'.names (L.last root trail).1 ref' = L.names (L.last root trail).1 ref
  text : ∀ k, L.Reached root k → Alike ρ ε (L.text k) (L'.text k)

variable {L L' ρ ε}

/-- What loads in one library loads in the other, along the same edges and with a result that
matches. -/
theorem Loads.simulate {root : Place K R V E} {trail : List K} {es : List (Option K × K)}
    {o : Except (Fault K R E) V} {t' : Text R' V E'} (h : L.Loads c p es o)
    (hs : Simulates L L' ρ ε root) (ht : L.Trail root trail) (hr : Rests L (L.last root trail) p)
    (ha : Alike ρ ε p.2 t') : ∃ o', L'.Loads c (p.1, t') es o' ∧ Matches ρ ε o o' := by
  have names {a : Option K} {ref : R} {ref' : R'} {next : V → Text R V E} {trail : List K}
      (ht : L.Trail root trail) (hr : Rests L (L.last root trail) (a, .refer ref next))
      (href : ρ ref ref') : L'.names a ref' = L.names a ref := by
    have := hs.names trail ref ref' ht (hr.inside _ .here) href
    rwa [← hr.here] at this
  have text {a : Option K} {ref : R} {next : V → Text R V E} {k : K} {trail : List K}
      (ht : L.Trail root trail) (hr : Rests L (L.last root trail) (a, .refer ref next))
      (hn : L.names a ref = some k) : Alike ρ ε (L.text k) (L'.text k) :=
    hs.text k ⟨trail, ht.snoc (hr.refers hn)⟩
  induction h generalizing trail t' with
  | value =>
    cases ha with
    | value => exact ⟨_, .value, .value _⟩
  | own =>
    cases ha with
    | error he => exact ⟨_, .own, .own he⟩
  | missing hn =>
    cases ha with
    | refer href _ => exact ⟨_, .missing ((names ht hr href).trans hn), .missing href⟩
  | cycle hn hm =>
    cases ha with
    | refer href _ => exact ⟨_, .cycle ((names ht hr href).trans hn) hm, .cycle ..⟩
  | fails hn hm _ ih =>
    cases ha with
    | refer href _ =>
      obtain ⟨o', hl, ho⟩ := ih (ht.snoc (hr.refers hn)) (.concat ..) (text ht hr hn)
      cases ho with
      | own he => exact ⟨_, .fails ((names ht hr href).trans hn) hm hl, .own he⟩
      | missing hm' => exact ⟨_, .fails ((names ht hr href).trans hn) hm hl, .missing hm'⟩
      | cycle => exact ⟨_, .fails ((names ht hr href).trans hn) hm hl, .cycle ..⟩
  | next hn hm hv _ ih ih' =>
    cases ha with
    | refer href hnext =>
      obtain ⟨o', hl, ho⟩ := ih (ht.snoc (hr.refers hn)) (.concat ..) (text ht hr hn)
      cases ho with
      | value v =>
        obtain ⟨o', hl', ho⟩ := ih' ht (hr.next hn (hv.ends rfl)) (hnext _)
        exact ⟨o', .next ((names ht hr href).trans hn) hm hl hl', ho⟩

end Simulation

end Library

end Inclusion
