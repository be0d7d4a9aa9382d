import MultiSource.Lib.Inclusion
import MultiSource.Ts.Plugin

/-!
# What a document loads in the canonical port

Where a resolver finds each source under one path with one text, the sources are texts that include
each other, and a parse of the plugin is a depth-first load of them. An exception of the resolver is
a reference to nothing.
-/

namespace MultiSource.Ts

open Interaction Inclusion Inclusion.Library

variable {V E : Type}

/-- A parse as a text: its references by what each names, and what the action does with a value. -/
def Parse.text : Parse V E → Text Body V (Escape E)
  | .done result => .done (result.mapError .own)
  | .act site next => .refer site.spec fun v => (next (site.effect v)).text

/-- The engine reads the text of a source and nothing else. -/
def Textual (engine : Engine V E) (tree : Property → Parse V E) : Prop :=
  ∀ src parseMeta, engine.parse src parseMeta = tree src

/-- A source is found under one path, with the text under it and the kind of the path. -/
def Serves (popts : PluginOptions) (fs : Option NodeFs) (src : Str → Property) : Prop :=
  ∀ path spec res, popts.resolver ⟨fs, path⟩ spec = .ok (some res) → res.found = true →
    ∃ full, res.full = some full ∧ res.src = some (src full) ∧ res.kind = extKind (some full)

section Sources

variable (popts : PluginOptions) (fs : Option NodeFs) (src : Str → Property)
  (engine : Engine V E) (tree : Property → Parse V E)

/-- The source a reference loads, from where it stands. -/
def namesAt (path : Option Str) (spec : Body) : Option Str :=
  match popts.resolver ⟨fs, path⟩ spec with
  | .ok (some res) => if res.found then res.full else none
  | _ => none

/-- The text of a source, by its kind: what is not parsed is a value already, or an exception. -/
def textOf (full : Str) : Text Body V (Escape E) :=
  match getProcessor (extKind (some full)) popts.processor with
  | none => .done (.error (.thrown .typeError))
  | some .default => .done (.ok (engine.value (src full)))
  | some .jsonic => (tree (src full)).text
  | some .javaScript => .done ((engine.evaluate (some full)).mapError .own)
  | some (.inherited name) =>
    .done (((callInherited name).mapError .thrown).map fun _ => engine.undefined)

/-- The sources a resolver finds as texts that include each other. -/
def sources : Library Str Body V (Escape E) where
  text := textOf popts src engine tree
  names := namesAt popts fs

/-- A document at its place. -/
def document (c : Call) : Place Str Body V (Escape E) :=
  (c.parseMeta.msmeta.path, (tree c.src).text)

end Sources

variable {popts : PluginOptions} {fs : Option NodeFs} {src : Str → Property}
  {engine : Engine V E} {tree : Property → Parse V E}

/-! ## Names and metadata -/

theorem namesAt_eq_some (hs : Serves popts fs src) {path : Option Str} {spec : Body} {full : Str}
    (h : namesAt popts fs path spec = some full) :
    ∃ res, popts.resolver ⟨fs, path⟩ spec = .ok (some res) ∧ res.found = true ∧
      res.full = some full ∧ res.src = some (src full) ∧ res.kind = extKind (some full) := by
  unfold namesAt at h
  split at h
  · rename_i res hr
    split_ifs at h with hf
    obtain ⟨full', hfull, hsrc, hkind⟩ := hs path spec res hr hf
    obtain rfl := Option.some.inj (hfull.symm.trans h)
    exact ⟨res, hr, hf, hfull, hsrc, hkind⟩
  · cases h

theorem metaParents_childMeta (parseMeta : Meta) (dive : Option (List Str))
    (res : Resolution Property) :
    metaParents (childMeta parseMeta dive res) = metaParents parseMeta ++ res.full.toList := rfl

/-! ## A parse is a load -/

/-- An edge followed, as it is recorded. -/
def edgeEvent (e : Option Str × Str) : Event (sig V E) := ⟨.depend (e.1.filter (· ≠ [])) e.2, ()⟩

/-- What a parse records of the edges it follows. -/
def recorded (parseMeta : Meta) (es : List (Option Str × Str)) : List (Event (sig V E)) :=
  if parseMeta.msmeta.deps then es.map edgeEvent else []

/-- What escapes for a fault: an error of a text's own as it is, and for a reference to nothing or
into a loop the error of a token marked bad, or the exception of the resolver. -/
inductive Tells (popts : PluginOptions) (fs : Option NodeFs) :
    Library.Fault Str Body (Escape E) → Escape E → Prop
  | own (path : Option Str) (escape : Escape E) : Tells popts fs (.own path escape) escape
  | missing {path : Option Str} {spec : Body} (token : Token) (res : Option (Resolution Property)) :
      popts.resolver ⟨fs, path⟩ spec = .ok res →
      Tells popts fs (.missing path spec) (.bad token NOT_FOUND (.missing res (searchstr res)))
  | thrown {path : Option Str} {spec : Body} {ex : Thrown} :
      popts.resolver ⟨fs, path⟩ spec = .error ex → Tells popts fs (.missing path spec) (.thrown ex)
  | cycle {chain : List Str} {key : Str} (token : Token) {i : ℕ} :
      chain.findIdx? (· = key) = some i →
      Tells popts fs (.cycle chain key) (.bad token CYCLE
        (.cycle key ((chain.drop i ++ [key]).intersperse " -> ".toList).flatten))

/-- The plugin answers a load: a value is that value, and a fault escapes as what tells it. -/
inductive Answers (popts : PluginOptions) (fs : Option NodeFs) :
    Except (Library.Fault Str Body (Escape E)) V → Except (Escape E) V → Prop
  | value (v : V) : Answers popts fs (.ok v) (.ok v)
  | error {f : Library.Fault Str Body (Escape E)} {escape : Escape E} : Tells popts fs f escape →
      Answers popts fs (.error f) (.error escape)

theorem recorded_append (parseMeta : Meta) (es es' : List (Option Str × Str)) :
    recorded (V := V) (E := E) parseMeta (es ++ es') =
      recorded parseMeta es ++ recorded parseMeta es' := by
  unfold recorded
  split_ifs
  · rw [List.map_append]
  · rfl

theorem recorded_nil (parseMeta : Meta) : recorded (V := V) (E := E) parseMeta [] = [] := by
  unfold recorded
  split_ifs <;> rfl

variable {parseMeta : Meta} {site : Site}

theorem evals_recorded (b : Call → Program V E (Except (Escape E) V)) (parseMeta : Meta)
    (full : Str) : Evals (S := sig V E) b (recordEdge parseMeta full)
      (recorded parseMeta [(parseMeta.msmeta.path, full)]) () := by
  unfold recordEdge recorded
  split_ifs
  · exact evals_op.mpr ⟨(), [], rfl, .ret ()⟩
  · exact .ret ()

variable (engine) in
/-- The action on a reference to nothing. -/
theorem action_missing (hs : Serves popts fs src) (hfs : parseMeta.fs = fs)
    (h : namesAt popts fs parseMeta.msmeta.path site.spec = none) :
    ∃ escape, Tells popts fs (.missing parseMeta.msmeta.path site.spec) escape ∧
      multisourceStateAction engine popts parseMeta site = .ret (.escapes escape) := by
  unfold namesAt at h
  unfold multisourceStateAction Meta.ctx
  rw [hfs]
  cases hr : popts.resolver ⟨fs, parseMeta.msmeta.path⟩ site.spec with
  | error ex => exact ⟨_, .thrown hr, rfl⟩
  | ok res =>
    cases res with
    | none => exact ⟨_, .missing site.o0 none hr, rfl⟩
    | some res =>
      rw [hr] at h
      dsimp only at h ⊢
      split_ifs at h with hf
      · obtain ⟨full, hfull, -⟩ := hs _ _ _ hr hf
        rw [hfull] at h
        cases h
      · rw [if_neg hf]
        exact ⟨_, .missing site.o0 (some res) hr, rfl⟩

variable (engine) in
/-- The action on a reference to a source around it. -/
theorem action_cycle (hs : Serves popts fs src) (hfs : parseMeta.fs = fs) {full : Str}
    (h : namesAt popts fs parseMeta.msmeta.path site.spec = some full)
    (hm : full ∈ metaParents parseMeta) :
    ∃ escape, Tells popts fs (.cycle (metaParents parseMeta) full) escape ∧
      multisourceStateAction engine popts parseMeta site = .ret (.escapes escape) := by
  obtain ⟨res, hr, hf, hfull, -⟩ := namesAt_eq_some hs h
  have hpath : fullPath res = full := by
    unfold fullPath
    rw [hfull]
    rfl
  obtain ⟨i, hi⟩ : ∃ i, (metaParents parseMeta).findIdx? (· = full) = some i := by
    apply Option.isSome_iff_exists.mp
    rw [List.findIdx?_isSome]
    exact List.any_eq_true.mpr ⟨full, hm, decide_eq_true rfl⟩
  refine ⟨_, .cycle site.o0 hi, ?_⟩
  unfold multisourceStateAction Meta.ctx
  rw [hfs, hr]
  dsimp only
  rw [if_pos hf, hpath, hi]
  rfl

variable (site) in
/-- The action on any other reference: the edge is recorded, the source processed, and the result
concluded from. -/
theorem evals_loaded (b : Call → Program V E (Except (Escape E) V)) (hfs : parseMeta.fs = fs)
    {full : Str} {res : Resolution Property} {tr : List (Event (sig V E))}
    {val : Except (Escape E) V}
    (hr : popts.resolver ⟨fs, parseMeta.msmeta.path⟩ site.spec = .ok (some res))
    (hf : res.found = true) (hfull : res.full = some full) (hm : full ∉ metaParents parseMeta)
    (hp : Evals (S := sig V E) b
      (process engine popts.processor res (childMeta parseMeta site.dive res)) tr val) :
    Evals (S := sig V E) b (multisourceStateAction engine popts parseMeta site)
      (recorded parseMeta [(parseMeta.msmeta.path, full)] ++ tr) (conclude site val) := by
  have hpath : fullPath res = full := by
    unfold fullPath
    rw [hfull]
    rfl
  have hidx : (metaParents parseMeta).findIdx? (· = full) = none := by
    apply List.findIdx?_eq_none_iff.mpr
    intro p hp
    simp only [decide_eq_false_iff_not]
    rintro rfl
    exact hm hp
  unfold multisourceStateAction Meta.ctx
  rw [hfs, hr]
  dsimp only
  rw [if_pos hf, hpath, hidx]
  unfold load
  rw [hpath]
  refine evals_bind.mpr ⟨_, _, _, rfl, evals_recorded b parseMeta full, ?_⟩
  rw [← List.append_nil tr]
  exact evals_bind.mpr ⟨_, _, _, rfl, hp, .ret _⟩

/-- A source is a value or an exception already, or it is parsed. -/
theorem process_cases (engine : Engine V E) (tree : Property → Parse V E) {full : Str}
    {res : Resolution Property} (hfull : res.full = some full) (hsrc : res.src = some (src full))
    (hkind : res.kind = extKind (some full)) :
    (∃ result, textOf popts src engine tree full = .done result ∧
      ∀ m, process engine popts.processor res m = .ret result) ∨
    textOf popts src engine tree full = (tree (src full)).text ∧
      ∀ m, process engine popts.processor res m = .call ⟨src full, m⟩ .ret := by
  unfold textOf process
  rw [hkind]
  cases getProcessor (extKind (some full)) popts.processor with
  | none => exact .inl ⟨_, rfl, fun _ => rfl⟩
  | some proc =>
    cases proc with
    | default =>
      rw [hsrc]
      exact .inl ⟨_, rfl, fun _ => rfl⟩
    | jsonic =>
      unfold jsonicProcessor
      rw [hsrc, hfull]
      exact .inr ⟨rfl, fun _ => rfl⟩
    | javaScript =>
      rw [hfull]
      exact .inl ⟨_, rfl, fun _ => rfl⟩
    | inherited name => exact .inl ⟨_, rfl, fun _ => rfl⟩

theorem evals_run_escapes {b : Call → Program V E (Except (Escape E) V)}
    {tr : List (Event (sig V E))} {escape : Escape E} {next : Effect V → Parse V E}
    (h : Evals (S := sig V E) b (multisourceStateAction engine popts parseMeta site) tr
      (.escapes escape)) :
    Evals (S := sig V E) b (run engine popts parseMeta (.act site next)) tr (.error escape) := by
  rw [run, ← List.append_nil tr]
  exact evals_bind.mpr ⟨_, _, _, rfl, h, .ret _⟩

theorem evals_run_applied {b : Call → Program V E (Except (Escape E) V)}
    {tr tr' : List (Event (sig V E))} {effect : Effect V} {next : Effect V → Parse V E}
    {a : Except (Escape E) V}
    (h : Evals (S := sig V E) b (multisourceStateAction engine popts parseMeta site) tr
      (.applied effect))
    (h' : Evals (S := sig V E) b (run engine popts parseMeta (next effect)) tr' a) :
    Evals (S := sig V E) b (run engine popts parseMeta (.act site next)) (tr ++ tr') a := by
  rw [run]
  exact evals_bind.mpr ⟨_, _, _, rfl, h, h'⟩

/-- Along a load of a text the plugin parses it: it records the edges that are followed, and answers
with what the load comes to. -/
theorem evals_run (hs : Serves popts fs src) (htree : Textual engine tree)
    {p : Place Str Body V (Escape E)} {c : List Str} {es : List (Option Str × Str)}
    {o : Except (Library.Fault Str Body (Escape E)) V}
    (h : (sources popts fs src engine tree).Loads c p es o) {rest : Parse V E}
    (hp : p = (parseMeta.msmeta.path, rest.text)) (hc : c = metaParents parseMeta)
    (hfs : parseMeta.fs = fs) :
    ∃ a, Answers popts fs o a ∧
      Evals (S := sig V E) (body engine popts) (run engine popts parseMeta rest)
        (recorded parseMeta es) a := by
  -- a source comes to what its text loads as, if a parse of it does
  have processed {parseMeta : Meta} {site : Site} {res : Resolution Property} {full : Str}
      {es : List (Option Str × Str)} {c : List Str}
      {o : Except (Library.Fault Str Body (Escape E)) V}
      (hfull : res.full = some full) (hsrc : res.src = some (src full))
      (hkind : res.kind = extKind (some full))
      (hload : (sources popts fs src engine tree).Loads c
        ((sources popts fs src engine tree).place full) es o)
      (ih : ∀ rest : Parse V E, (sources popts fs src engine tree).place full =
          (some full, rest.text) → ∃ a, Answers popts fs o a ∧
        Evals (S := sig V E) (body engine popts)
          (run engine popts (childMeta parseMeta site.dive res) rest)
          (recorded (childMeta parseMeta site.dive res) es) a) :
      ∃ a, Answers popts fs o a ∧ Evals (S := sig V E) (body engine popts)
        (process engine popts.processor res (childMeta parseMeta site.dive res))
        (recorded parseMeta es) a := by
    rcases process_cases engine tree hfull hsrc hkind with ⟨result, ht, hp⟩ | ⟨ht, hp⟩
    · rw [place, show (sources popts fs src engine tree).text full = _ from ht] at hload
      rw [hp]
      cases hload with
      | value => exact ⟨_, .value _, recorded_nil parseMeta ▸ .ret _⟩
      | own => exact ⟨_, .error (.own _ _), recorded_nil parseMeta ▸ .ret _⟩
    · obtain ⟨a, ha, he⟩ := ih (tree (src full)) (by rw [← ht]; rfl)
      refine ⟨a, ha, ?_⟩
      rw [hp, ← List.append_nil (recorded parseMeta es)]
      refine .call ?_ (.ret _)
      rw [body, htree]
      exact he
  induction h generalizing parseMeta rest with
  | value =>
    cases rest with
    | act site next => cases hp
    | done result =>
      cases result with
      | error e => cases hp
      | ok v =>
        cases hp
        exact ⟨_, .value _, recorded_nil parseMeta ▸ .ret _⟩
  | own =>
    cases rest with
    | act site next => cases hp
    | done result =>
      cases result with
      | ok v => cases hp
      | error e =>
        cases hp
        exact ⟨_, .error (.own _ _), recorded_nil parseMeta ▸ .ret _⟩
  | missing hn =>
    cases rest with
    | done result => cases hp
    | act site next =>
      cases hp
      obtain ⟨escape, htell, he⟩ := action_missing engine hs hfs hn
      exact ⟨_, .error htell, evals_run_escapes (he ▸ recorded_nil parseMeta ▸ .ret _)⟩
  | cycle hn hm =>
    cases rest with
    | done result => cases hp
    | act site next =>
      cases hp
      subst hc
      obtain ⟨escape, htell, he⟩ := action_cycle engine hs hfs hn hm
      exact ⟨_, .error htell, evals_run_escapes (he ▸ recorded_nil parseMeta ▸ .ret _)⟩
  | fails hn hm hload ih =>
    cases rest with
    | done result => cases hp
    | act site next =>
      cases hp
      subst hc
      obtain ⟨res, hr, hf, hfull, hsrc, hkind⟩ := namesAt_eq_some hs hn
      obtain ⟨a, ha, he⟩ := processed hfull hsrc hkind hload fun rest hp =>
        ih (by rw [hp, ← hfull]; rfl) (by rw [metaParents_childMeta, hfull]; rfl) hfs
      cases ha with
      | error htell =>
        refine ⟨_, .error htell, evals_run_escapes ?_⟩
        have := evals_loaded site _ hfs hr hf hfull hm he
        rwa [← recorded_append] at this
  | next hn hm hload _ ih ih' =>
    cases rest with
    | done result => cases hp
    | act site next =>
      cases hp
      subst hc
      obtain ⟨res, hr, hf, hfull, hsrc, hkind⟩ := namesAt_eq_some hs hn
      obtain ⟨a, ha, he⟩ := processed hfull hsrc hkind hload fun rest hp =>
        ih (by rw [hp, ← hfull]; rfl) (by rw [metaParents_childMeta, hfull]; rfl) hfs
      cases ha with
      | value v =>
        obtain ⟨a, ha, he'⟩ := ih' rfl rfl hfs
        refine ⟨a, ha, ?_⟩
        have := evals_loaded site _ hfs hr hf hfull hm he
        rw [← recorded_append] at this
        rw [recorded_append]
        exact evals_run_applied this he'

/-! ## What a document comes to -/

theorem subsingleton_resp (o : Op) : Subsingleton o.Resp := by
  cases o
  exact inferInstanceAs (Subsingleton Unit)

/-- A document loads as its text does, and has one run. -/
theorem evals_document (hs : Serves popts fs src)
    (hfin : (sources popts fs src engine tree).Finite) (htree : Textual engine tree) (c : Call)
    (hfs : c.parseMeta.fs = fs) : ∃ es o a,
      (sources popts fs src engine tree).Loads (metaParents c.parseMeta) (document tree c) es o ∧
      Answers popts fs o a ∧
      ∀ tr b, Evals (S := sig V E) (body engine popts) (body engine popts c) tr b ↔
        tr = recorded c.parseMeta es ∧ b = a := by
  obtain ⟨es, o, h⟩ := exists_loads hfin (metaParents c.parseMeta) (document tree c)
  obtain ⟨a, ha, he⟩ := evals_run hs htree h rfl rfl hfs
  have hbody : Evals (S := sig V E) (body engine popts) (body engine popts c)
      (recorded c.parseMeta es) a := by
    rw [body, htree]
    exact he
  refine ⟨es, o, a, h, ha, fun tr b => ⟨fun h => ?_, ?_⟩⟩
  · exact h.unique_events subsingleton_resp hbody
  · rintro ⟨rfl, rfl⟩
    exact hbody

theorem mem_recorded {parseMeta : Meta} (hd : parseMeta.msmeta.deps = true)
    {es : List (Option Str × Str)} {tar : Option Str} {full : Str} :
    (⟨.depend tar full, ()⟩ : Event (sig V E)) ∈ recorded parseMeta es ↔
      ∃ path, path.filter (· ≠ []) = tar ∧ (path, full) ∈ es := by
  unfold recorded
  rw [if_pos hd]
  constructor
  · intro h
    obtain ⟨⟨path, full'⟩, hmem, he⟩ := List.mem_map.mp h
    obtain ⟨htar, rfl⟩ := Op.depend.inj (congrArg Sigma.fst he)
    exact ⟨path, htar, hmem⟩
  · rintro ⟨path, rfl, hmem⟩
    exact List.mem_map.mpr ⟨_, hmem, rfl⟩

/-- With a resolver that finds finitely many sources, and for every document: the parse ends. It has
a value exactly if the document is sound, the value of its text, and then a caller that collects
dependencies has exactly the references of the document and of what it leads to. And any exception
is that of a text, a reference or a loop the document leads to. -/
theorem canonical_loads_iff_sound (popts : PluginOptions) (fs : Option NodeFs)
    (src : Str → Property) (engine : Engine V E) (tree : Property → Parse V E)
    (hs : Serves popts fs src) (hfin : (sources popts fs src engine tree).Finite)
    (htree : Textual engine tree) (c : Call) (hfs : c.parseMeta.fs = fs) :
    let L := sources popts fs src engine tree
    let Ran := Evals (S := sig V E) (body engine popts) (body engine popts c)
    (∃ tr a, Ran tr a) ∧ ∀ tr a, Ran tr a →
      ((∃ v, a = .ok v) ↔ L.Sound (metaParents c.parseMeta) (document tree c)) ∧
      (∀ v, a = .ok v → L.Ends (document tree c) (.ok v) ∧
        (c.parseMeta.msmeta.deps = true → ∀ tar full, ⟨.depend tar full, ()⟩ ∈ tr ↔
          ∃ path, path.filter (· ≠ []) = tar ∧ L.Edge (document tree c) (path, full))) ∧
      ∀ escape, a = .error escape → ∃ f, Blames L (metaParents c.parseMeta) (document tree c) f ∧
        Tells popts fs f escape := by
  intro L Ran
  obtain ⟨es, o, a₀, h, hans, hall⟩ := evals_document hs hfin htree c hfs
  refine ⟨⟨_, _, (hall _ _).mpr ⟨rfl, rfl⟩⟩, fun tr a ha => ?_⟩
  obtain ⟨rfl, rfl⟩ := (hall _ _).mp ha
  rw [← loads_iff_sound hfin]
  cases hans with
  | value v =>
    refine ⟨iff_of_true ⟨v, rfl⟩ ⟨es, v, h⟩, fun w hw => ?_, fun escape he => (by cases he)⟩
    obtain rfl := Except.ok.inj hw
    refine ⟨h.ends rfl, fun hd tar full => ?_⟩
    rw [mem_recorded hd]
    simp only [h.edges]
    rfl
  | @error f escape htell =>
    refine ⟨iff_of_false (by simp) ?_, fun w hw => (by cases hw), fun escape' he => ?_⟩
    · rintro ⟨es', v, h'⟩
      cases (h.unique h').2
    · obtain rfl := Except.error.inj he
      exact ⟨f, h.blames rfl (List.append_nil _).symm .nil (.refl _), htell⟩

/-! ## The in-memory resolver -/

section Mem

variable {filemap : Entries Str} {objectText : ObjectText} {options : Options}

/-- What the map answers to a path with. -/
def held (filemap : Entries Str) (full : Str) : Property :=
  (MemResolver.lookup filemap full).getD (.text [])

theorem resolvePathSpec_kind {ctx : Ctx} {spec : Body}
    {resolvefolder : Option Str → Except Thrown (Option Str)} {ps : PathSpec}
    (h : resolvePathSpec objectText options ctx spec resolvefolder = .ok ps) :
    ps.kind = extKind ps.full := by
  unfold resolvePathSpec at h
  cases hb : resolvefolder (ctx.path <|> options.path) with
  | error ex =>
    rw [hb] at h
    cases h
  | ok base =>
    rw [hb] at h
    cases hp : specPath objectText spec with
    | error ex =>
      rw [hp] at h
      cases h
    | ok path =>
      rw [hp] at h
      obtain rfl := Except.ok.inj h
      rfl

/-- What is found is a property of the map, under its path. -/
theorem memResolve_found {ctx : Ctx} {spec : Body} {res : Resolution Property}
    (h : MemResolver.resolve filemap objectText options ctx spec = .ok res)
    (hf : res.found = true) : ∃ full src, res.full = some full ∧ res.src = some src ∧
      MemResolver.lookup filemap full = some src ∧ res.kind = extKind (some full) := by
  unfold MemResolver.resolve at h
  cases hps : resolvePathSpec objectText options ctx spec (MemResolver.resolvefolder filemap) with
  | error ex =>
    rw [hps] at h
    cases h
  | ok ps =>
    have hkind := resolvePathSpec_kind hps
    rw [hps] at h
    simp only [bind, Except.bind, pure, Except.pure] at h
    cases hfull : ps.full with
    | none =>
      rw [hfull] at h
      obtain rfl := Except.ok.inj h
      cases hf
    | some full =>
      rw [hfull] at h hkind
      dsimp only at h
      cases hl : MemResolver.lookup filemap full with
      | some src =>
        rw [hl] at h
        obtain rfl := Except.ok.inj h
        exact ⟨full, src, hfull, rfl, hl, hkind⟩
      | none =>
        rw [hl] at h
        dsimp only at h
        split_ifs at h
        · split at h
          · rename_i path src hfirst
            obtain rfl := Except.ok.inj h
            exact ⟨path, src, rfl, rfl, (MemResolver.firstProperty_mem hfirst).2, rfl⟩
          · obtain rfl := Except.ok.inj h
            cases hf
        · obtain rfl := Except.ok.inj h
          cases hf

theorem memResolver_ok {ctx : Ctx} {spec : Body} {res : Resolution Property}
    (h : (memPlugin filemap objectText options).resolver ctx spec = .ok (some res)) :
    MemResolver.resolve filemap objectText options.normalize ctx spec = .ok res := by
  change (MemResolver.resolve filemap objectText options.normalize ctx spec).map some = _ at h
  cases hr : MemResolver.resolve filemap objectText options.normalize ctx spec with
  | error ex =>
    rw [hr] at h
    cases h
  | ok res' =>
    rw [hr] at h
    rw [Option.some.inj (Except.ok.inj h)]

theorem memServes (filemap : Entries Str) (objectText : ObjectText) (options : Options)
    (fs : Option NodeFs) : Serves (memPlugin filemap objectText options) fs (held filemap) := by
  intro path spec res hr hf
  obtain ⟨full, src, hfull, hsrc, hl, hkind⟩ := memResolve_found (memResolver_ok hr) hf
  refine ⟨full, hfull, ?_, hkind⟩
  rw [hsrc, held, hl, Option.getD_some]

theorem mem_finite (engine : Engine V E) (tree : Property → Parse V E) :
    (sources (memPlugin filemap objectText options) fs (held filemap) engine tree).Finite := by
  refine ⟨filemap.map Prod.fst ++ inheritedNames, fun path spec full h => ?_⟩
  obtain ⟨res, hr, hf, hfull, -⟩ := namesAt_eq_some (memServes filemap objectText options fs) h
  obtain ⟨full', src, hfull', -, hl, -⟩ := memResolve_found (memResolver_ok hr) hf
  obtain rfl := Option.some.inj (hfull.symm.trans hfull')
  unfold MemResolver.lookup at hl
  cases hg : filemap.get full with
  | some text => exact List.mem_append_left _ (List.mem_map.mpr ⟨_, Entries.get_mem hg, rfl⟩)
  | none =>
    rw [hg] at hl
    dsimp only at hl
    split_ifs at hl with hm
    exact List.mem_append_right _ hm

end Mem

/-! ## A small engine -/

/-- A text is a reference after a mark, or a value. -/
def parseAlone : Property → Parse Property Unit
  | .text ('@' :: reference) => .act ⟨[], ⟨"@".toList, 0⟩, .string reference, none⟩ fun
    | .splice val => .done (.ok val)
    | .node val => .done (.ok val)
  | src => .done (.ok src)

def aloneEngine : Engine Property Unit where
  parse src _ := parseAlone src
  undefined := .text []
  value src := src
  evaluate _ := .error ()

/-- A reference to a source that refers to itself. -/
theorem canonical_loads_iff_sound_loop :
    let popts := memPlugin [("a.jsonic".toList, "@a.jsonic".toList)] (fun _ => .ok []) ⟨none, []⟩
    let c : Call := ⟨.text "@a.jsonic".toList, ⟨none, none, none, none⟩⟩
    ∃ tr a, Evals (S := sig Property Unit) (body aloneEngine popts) (body aloneEngine popts c)
        tr a ∧ ((∃ v, a = .ok v) ↔ (sources popts none
          (held [("a.jsonic".toList, "@a.jsonic".toList)]) aloneEngine parseAlone).Sound []
            (document parseAlone c)) := by
  intro popts c
  obtain ⟨⟨tr, a, h⟩, hall⟩ := canonical_loads_iff_sound popts none _ aloneEngine parseAlone
    (memServes _ _ _ _) (mem_finite _ _) (fun _ _ => rfl) c rfl
  exact ⟨tr, a, h, (hall tr a h).1⟩

end MultiSource.Ts
