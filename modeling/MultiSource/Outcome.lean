import MultiSource.Ancestors

/-!
# What a parse comes to

The outcome of a parse without tickets, slots or threads. A reference gives a value or is the place
a report is raised at, and a report raised inside a nested parse is that of the load around it.
-/

namespace MultiSource

open Interaction

/-- How a parse or a reference ends: with a value, with an error of the engine in the parse itself,
or with a report of the plugin. -/
inductive Outcome : Type
  | value (value : Value)
  | own (error : OwnError)
  | raised (report : Report)

/-- What has an outcome: a parse from some reference on, or one reference. -/
inductive Task : Type
  | source (rest : Parse)
  | reference (site : Site)

section Loads

variable (options : MultiSourceOptions)

/-- The text a load parses again, if it is of that kind. -/
def nestedText (r : Resolution) : Option Str :=
  match options.processorFor r.spec.kind, r.src, r.spec.full with
  | some .jsonic, some src, some _ => some src
  | _, _, _ => none

/-- The value of a load that is not parsed again. -/
def plainValue (r : Resolution) : Value :=
  match options.processorFor r.spec.kind with
  | some .raw => (defaultProcessor r).val
  | _ => r.val

theorem nestedText_eq_some {r : Resolution} {src : Str} (h : nestedText options r = some src) :
    r.src = some src ∧ r.spec.full.isSome = true := by
  unfold nestedText at h
  split at h
  · rename_i hsrc hfull
    exact ⟨hsrc.trans h, by rw [hfull]; rfl⟩
  · exact absurd h (by simp)

end Loads

variable {I : Type} {options : MultiSourceOptions} (engine : Engine I options.markchar)
  (W : World I) (parser : I)

/-- The reference at `site` is resolved to `r`, which passes both checks. -/
structure Admits (parseMeta : Value) (site : Site) (r : Resolution) : Prop where
  resolves : W.resolves (referenceOf engine.float site.body) parseMeta r
  found : r.found = true
  checked : chainReport options.maxDepth (metaChain parseMeta) r.fullPath = none

/-- The report of an error that comes back from the load of `fullpath`. -/
def errorReport (fullpath : Str) (error : TabnasError) : Report :=
  (codeOf error, summary fullpath error)

/-- The error of a nested parse that got no thread. -/
def threadError (reason : Str) : OwnError where
  error := spawnError reason
  own := (by decide : "internal".toList ≠ NOT_FOUND ∧ "internal".toList ≠ CYCLE ∧
    "internal".toList ≠ DEPTH)

/-- The outcome of a load of `r` whose own parse came to `o`. A report stays what it was. -/
def settle (r : Resolution) : Outcome → Outcome
  | .value v =>
    match r.err with
    | none => .value v
    | some e => .raised (errorReport r.fullPath e)
  | .own e => .raised (errorReport r.fullPath e.error)
  | .raised report => .raised report

/-- The metadata of a parse nested in the load at `site`. -/
abbrev nestedMeta (parseMeta : Value) (site : Site) (r : Resolution) (ticket : Str) : Value :=
  childMeta parseMeta r (metaChain parseMeta) site.dive ticket

/-- The outcomes under some metadata, with nested parses on `parser`. -/
inductive Ends : Value → Task → Outcome → Prop
  | value {m : Value} {v : Value} : Ends m (.source (.done (.ok v))) (.value v)
  | own {m : Value} {e : OwnError} : Ends m (.source (.done (.error e))) (.own e)
  | next {m : Value} {site : Site} {next : Effect → Parse} {v : Value} {o : Outcome} :
      Ends m (.reference site) (.value v) → Ends m (.source (next (site.effect v))) o →
      Ends m (.source (.act site next)) o
  | stop {m : Value} {site : Site} {next : Effect → Parse} {report : Report} :
      Ends m (.reference site) (.raised report) → Ends m (.source (.act site next)) (.raised report)
  | notFound {m : Value} {site : Site} {r : Resolution} :
      W.resolves (referenceOf engine.float site.body) m r → r.found = false →
      Ends m (.reference site) (.raised (notFoundReport (referenceOf engine.float site.body) r))
  | refused {m : Value} {site : Site} {r : Resolution} {report : Report} :
      W.resolves (referenceOf engine.float site.body) m r → r.found = true →
      chainReport options.maxDepth (metaChain m) r.fullPath = some report →
      Ends m (.reference site) (.raised report)
  | plain {m : Value} {site : Site} {r : Resolution} {o : Outcome} : Admits engine W m site r →
      nestedText options r = none → o = settle r (.value (plainValue options r)) →
      Ends m (.reference site) o
  | noThread {m : Value} {site : Site} {r : Resolution} {src reason : Str} {o : Outcome} :
      Admits engine W m site r → nestedText options r = some src →
      (metaChain m).length % SEGMENT = 1 → W.spawns (some reason) →
      o = settle r (.own (threadError reason)) → Ends m (.reference site) o
  | nested {m : Value} {site : Site} {r : Resolution} {src ticket : Str} {o o' : Outcome} :
      Admits engine W m site r → nestedText options r = some src →
      Ends (nestedMeta m site r ticket)
        (.source (engine.parse parser src (nestedMeta m site r ticket))) o' →
      o = settle r o' → Ends m (.reference site) o

/-- A parse answers its outcome: an error of the engine's own whole, a report by its code and
bag. -/
def Answers : Outcome → Except TabnasError Value → Prop
  | .value v, answer => answer = .ok v
  | .own e, answer => answer = .error e.error
  | .raised report, answer =>
    ∃ error, answer = .error error ∧ error.code = report.1 ∧ error.bag = report.2

/-- The code of an answer that is an error. -/
def answerCode : Except TabnasError Value → Str
  | .ok _ => []
  | .error error => error.code

/-- What an action did for the outcome of its reference. -/
def Acts (site : Site) : Outcome → ActionResult → Prop
  | .value v, result => result = .applied (site.effect v)
  | .own _, _ => False
  | .raised report, result => ∃ token, result = .bad token report.1 report.2

/-! ## The cells between two references -/

/-- No slot is under a ticket not minted yet. -/
def Clean (s : Shared I) : Prop := ∀ k, s.next ≤ k → s.slots.get (decimal k) = none

/-- The ticket of a parse, if it has one, was minted. -/
def Minted (s : Shared I) (parseMeta : Value) : Prop :=
  ∀ ticket, metaMultisourceString parseMeta REPORT_TICKET = some ticket →
    ∃ k < s.next, ticket = decimal k

/-- The slot a parse leaves behind: its report under its own ticket. -/
def leftSlot (parseMeta : Value) : Outcome → Str → Option Report
  | .raised report, ticket =>
    if metaMultisourceString parseMeta REPORT_TICKET = some ticket then some report else none
  | _, _ => none

/-- What a parse leaves of the cells. -/
structure Leaves (parseMeta : Value) (s : Shared I) (o : Outcome) (s' : Shared I) : Prop where
  published : s'.published = s.published
  next : s.next ≤ s'.next
  slots : ∀ ticket, s'.slots.get ticket = (leftSlot parseMeta o ticket <|> s.slots.get ticket)

section Cells

variable {s s' s'' : Shared I} {m : Value} {o : Outcome}

theorem Leaves.minted (h : Leaves m s o s') {m' : Value} (hm : Minted s m') : Minted s' m' := by
  intro ticket ht
  obtain ⟨k, hk, he⟩ := hm ticket ht
  exact ⟨k, lt_of_lt_of_le hk h.next, he⟩

theorem leftSlot_minted (hm : Minted s m) {k : ℕ} (hk : s.next ≤ k) :
    leftSlot m o (decimal k) = none := by
  cases o with
  | value v => rfl
  | own e => rfl
  | raised report =>
    apply if_neg
    intro ht
    obtain ⟨j, hj, he⟩ := hm _ ht
    have := decimal_inj.mp he
    omega

theorem Leaves.clean (h : Leaves m s o s') (hm : Minted s m) (hs : Clean s) : Clean s' := by
  intro k hk
  rw [h.slots, leftSlot_minted hm (h.next.trans hk), hs k (h.next.trans hk)]
  rfl

theorem Leaves.trans_value {v : Value} (h : Leaves m s (.value v) s') (h' : Leaves m s' o s'') :
    Leaves m s o s'' := by
  refine ⟨h'.published.trans h.published, h.next.trans h'.next, fun ticket => ?_⟩
  rw [h'.slots, h.slots]
  rfl

end Cells

/-! ## The programs come to their outcomes -/

/-- `p` runs alone from `s` to `a` and leaves `s'`. -/
abbrev Execs {A : Type} (s : Shared I) (p : Program I A) (a : A) (s' : Shared I) : Prop :=
  Exec (S := sig I) (Handles W) (body engine) s p a s'

theorem processorFor_cases (hproc : options.processor = defaultProcessors) (kind : Str) :
    options.processorFor kind = some .raw ∨ options.processorFor kind = some .jsonic := by
  rw [MultiSourceOptions.processorFor_default hproc]
  split_ifs
  · exact .inr rfl
  · exact .inl rfl

section Requests

variable {engine parser} {σ : Type} {H : Handler (sig I) σ} {s s' : σ}

theorem exec_ask {o : Op I} {r : o.Resp} :
    Exec (S := sig I) H (body engine) s (ask o) r s' ↔ H s o r s' := by
  refine exec_op.trans ⟨?_, fun h => ⟨r, s', h, exec_ret.mpr ⟨rfl, rfl⟩⟩⟩
  rintro ⟨r', s₁, h, hr⟩
  obtain ⟨rfl, rfl⟩ := exec_ret.mp hr
  exact h

theorem exec_process (hproc : options.processor = defaultProcessors) {r r' : Resolution}
    {parseMeta : Value} {depth : ℕ}
    (h : Exec (S := sig I) H (body engine) s (process options r parseMeta parser depth) r' s') :
    (nestedText options r = none ∧ r' = { r with val := plainValue options r } ∧ s' = s) ∨
      ∃ src answer, nestedText options r = some src ∧
        Exec (S := sig I) H (body engine) s (parseNested engine parser src parseMeta depth) answer
          s' ∧
        r' = match answer with
          | .ok v => { r with val := v }
          | .error e => { r with val := .string src, err := some e } := by
  obtain ⟨spec, src, val, found, search, err⟩ := r
  rcases processorFor_cases hproc spec.kind with hp | hp
  · simp only [process, hp] at h
    obtain ⟨rfl, rfl⟩ := exec_ret.mp h
    simp only [nestedText, plainValue, hp]
    exact .inl ⟨trivial, rfl, trivial⟩
  · simp only [process, hp, jsonicProcessor] at h
    simp only [nestedText, plainValue, hp]
    cases src with
    | none =>
      obtain ⟨rfl, rfl⟩ := exec_ret.mp h
      exact .inl ⟨rfl, rfl, rfl⟩
    | some src =>
      cases hfull : spec.full with
      | none =>
        rw [hfull] at h
        obtain ⟨rfl, rfl⟩ := exec_ret.mp h
        exact .inl ⟨rfl, rfl, rfl⟩
      | some full =>
        rw [hfull] at h
        obtain ⟨answer, s₁, hbody, hret⟩ := exec_call.mp h
        refine .inr ⟨src, answer, rfl, ?_⟩
        cases answer with
        | ok v =>
          obtain ⟨rfl, rfl⟩ := exec_ret.mp hret
          exact ⟨hbody, rfl⟩
        | error e =>
          obtain ⟨rfl, rfl⟩ := exec_ret.mp hret
          exact ⟨hbody, rfl⟩

end Requests

section Exec

variable {engine W parser} {s s' : Shared I} {m : Value} {site : Site}

theorem exec_fail {report : Report} {result : ActionResult} (hm : Minted s m)
    (h : Execs engine W s (fail m site report) result s') :
    Acts site (.raised report) result ∧ Leaves m s (.raised report) s' := by
  obtain ⟨token, htoken⟩ := site.errorToken_isSome
  obtain ⟨_, s₁, hrec, hret⟩ := exec_bind.mp h
  rw [htoken] at hret
  obtain ⟨rfl, rfl⟩ := exec_ret.mp hret
  refine ⟨⟨token, rfl⟩, ?_⟩
  unfold recordReport at hrec
  cases ht : metaMultisourceString m REPORT_TICKET with
  | none =>
    rw [ht] at hrec
    obtain ⟨-, rfl⟩ := exec_ret.mp hrec
    exact ⟨rfl, le_rfl, fun x => by simp [leftSlot, ht]⟩
  | some ticket =>
    rw [ht] at hrec
    cases exec_ask.mp hrec
    refine ⟨rfl, le_rfl, fun x => ?_⟩
    rw [Shared.record, Entries.get_insert]
    by_cases hx : ticket = x <;> simp [leftSlot, ht, hx]

theorem exec_parseNested {src : Str} {depth : ℕ} {answer : Except TabnasError Value}
    (h : Execs engine W s (parseNested engine parser src m depth) answer s') :
    (depth % SEGMENT = 1 ∧ ∃ reason, W.spawns (some reason) ∧
      answer = .error (spawnError reason) ∧ s' = s) ∨
    Execs engine W s (parseWithMeta engine parser src m) answer s' := by
  unfold parseNested at h
  split_ifs at h with hd
  · obtain ⟨refused, s₁, ha, hret⟩ := exec_bind.mp h
    cases exec_ask.mp ha with
    | spawn hspawn =>
      cases refused with
      | some reason =>
        obtain ⟨rfl, rfl⟩ := exec_ret.mp hret
        exact .inl ⟨hd, reason, hspawn, rfl, rfl⟩
      | none => exact .inr hret
  · exact .inr h

theorem exec_recordEdge {parents : List Str} {fullpath : Str} {u : Unit}
    (h : Execs engine W s (recordEdge options parents fullpath) u s') :
    s'.published = s.published ∧ s'.next = s.next ∧ s'.slots = s.slots := by
  unfold recordEdge at h
  split_ifs at h
  · cases exec_ask.mp h
    exact ⟨rfl, rfl, rfl⟩
  · obtain ⟨-, rfl⟩ := exec_ret.mp h
    exact ⟨rfl, rfl, rfl⟩

end Exec

theorem codeOf_ne_nil (e : TabnasError) : codeOf e ≠ [] := by
  unfold codeOf
  split_ifs with h
  · decide
  · exact h

theorem chainReport_code {maxDepth : ℕ} {parents : List Str} {fullpath : Str} {report : Report}
    (h : chainReport maxDepth parents fullpath = some report) :
    report.1 = CYCLE ∨ report.1 = DEPTH := by
  rcases chainReport_eq_some h with ⟨_, _, -, -, rfl⟩ | ⟨-, -, rfl⟩
  · exact .inl rfl
  · exact .inr rfl

theorem settle_code {r : Resolution} {o : Outcome} {report : Report}
    (h : settle r o = .raised report) (ho : o = .raised report → report.1 ≠ []) :
    report.1 ≠ [] := by
  cases o with
  | raised report' => exact ho h
  | own e =>
    obtain rfl := Outcome.raised.inj h
    exact codeOf_ne_nil _
  | value v =>
    rw [settle] at h
    split at h
    · exact absurd h (by simp)
    · obtain rfl := Outcome.raised.inj h
      exact codeOf_ne_nil _

section Ends

variable {engine W parser}

theorem Ends.code_ne_nil {m : Value} {task : Task} {o : Outcome}
    (h : Ends engine W parser m task o) :
    ∀ report, o = .raised report → report.1 ≠ [] := by
  induction h with
  | value => exact fun _ h => absurd h (by simp)
  | own => exact fun _ h => absurd h (by simp)
  | next _ _ _ ih => exact ih
  | stop _ ih => exact ih
  | notFound =>
    rintro _ ⟨⟩
    exact (by decide : NOT_FOUND ≠ [])
  | refused _ _ hc =>
    rintro _ ⟨⟩
    rcases chainReport_code hc with h | h <;> rw [h] <;> decide
  | plain _ _ ho => exact fun report h => settle_code (ho.symm.trans h) (by simp)
  | noThread _ _ _ _ ho => exact fun report h => settle_code (ho.symm.trans h) (by simp)
  | nested _ _ _ ho ih => exact fun report h => settle_code (ho.symm.trans h) (ih report)

end Ends

/-! ## Loads and parses -/

section Parses

variable {engine W parser} {s s' : Shared I} {m : Value}

/-- A parse nested in a load at `site` comes to its outcome. -/
def NestedEnds (engine : Engine I options.markchar) (W : World I) (parser : I) (m : Value)
    (site : Site) (r : Resolution) : Prop :=
  ∀ ticket src s s' answer, nestedText options r = some src → s.published = some parser →
    Clean s → Minted s (nestedMeta m site r ticket) →
    Execs engine W s (parseWithMeta engine parser src (nestedMeta m site r ticket)) answer s' →
    ∃ o, Ends engine W parser (nestedMeta m site r ticket)
        (.source (engine.parse parser src (nestedMeta m site r ticket))) o ∧
      Answers o answer ∧ Leaves (nestedMeta m site r ticket) s o s'

/-- The slot of a load is freed, and no other was touched. -/
theorem get_freed {slots slots' : Entries Report} {ticket : Str}
    (h : ∀ x, x ≠ ticket → Entries.get x slots' = Entries.get x slots)
    (hnone : Entries.get ticket slots = none) (x : Str) :
    Entries.get x (Entries.remove ticket slots') = Entries.get x slots := by
  rw [Entries.get_remove]
  split_ifs with hx
  · rw [← hx, hnone]
  · exact h x (Ne.symm hx)

/-- The end of a load: its slot is freed, and what it recorded itself stays. -/
theorem Leaves.of_freed {s₀ s₁ : Shared I} {o : Outcome} {ticket : Str}
    (h : Leaves m s₁ o s') (hs₁ : s₁.slots = Entries.remove ticket s.slots)
    (hpub : s₁.published = s₀.published) (hnext : s₀.next ≤ s₁.next)
    (hget : ∀ x, x ≠ ticket → s.slots.get x = s₀.slots.get x)
    (hnone : s₀.slots.get ticket = none) : Leaves m s₀ o s' where
  published := h.published.trans hpub
  next := hnext.trans h.next
  slots x := by rw [h.slots, hs₁, get_freed hget hnone]

/-- The outcome of a load whose slot holds `slot`. -/
def finished (fullpath : Str) (r : Resolution) (slot : Option Report) : Outcome :=
  match r.err with
  | none => .value r.val
  | some error =>
    .raised (codeOf error, (reported slot (codeOf error)).getD (summary fullpath error))

/-- A load from its nested parse on. It was begun in `s₀`. -/
theorem exec_finish {s₀ s₁ : Shared I} {site : Site} {fullpath ticket : Str} {r : Resolution}
    {result : ActionResult} (hm : Minted s₁ m)
    (hpub : s₁.published = s₀.published) (hnext : s₀.next ≤ s₁.next)
    (hget : ∀ x, x ≠ ticket → s₁.slots.get x = s₀.slots.get x)
    (hnone : s₀.slots.get ticket = none)
    (h : Execs engine W s₁ (finish m site fullpath ticket r) result s') :
    Acts site (finished fullpath r (s₁.slots.get ticket)) result ∧
      Leaves m s₀ (finished fullpath r (s₁.slots.get ticket)) s' := by
  unfold finish at h
  unfold finished
  cases he : r.err with
  | none =>
    rw [he] at h
    obtain ⟨_, s₂, ha, hret⟩ := exec_bind.mp h
    obtain ⟨rfl, rfl⟩ := exec_ret.mp hret
    cases exec_ask.mp ha
    exact ⟨rfl, hpub, hnext, fun x => get_freed hget hnone x⟩
  | some error =>
    rw [he] at h
    obtain ⟨details, s₂, ha, hfail⟩ := exec_bind.mp h
    cases exec_ask.mp ha
    obtain ⟨hacts, hleaves⟩ := exec_fail (s := (s₁.take ticket (codeOf error)).2) hm hfail
    exact ⟨hacts, hleaves.of_freed rfl hpub hnext hget hnone⟩

/-- A load is begun: its ticket is a new one, and the slots are as they were. -/
structure Begun (s s₁ : Shared I) (ticket : Str) : Prop where
  published : s₁.published = s.published
  next : s.next ≤ s₁.next
  slots : s₁.slots = s.slots
  free : s.slots.get ticket = none
  issued : ∃ k < s₁.next, ticket = decimal k

section Begun

variable {s₁ : Shared I} {ticket : Str}

theorem Begun.minted (h : Begun s s₁ ticket) (hm : Minted s m) : Minted s₁ m := by
  intro t ht
  obtain ⟨k, hk, he⟩ := hm t ht
  exact ⟨k, lt_of_lt_of_le hk h.next, he⟩

theorem Begun.clean (h : Begun s s₁ ticket) (hs : Clean s) : Clean s₁ := by
  intro k hk
  rw [h.slots]
  exact hs k (h.next.trans hk)

theorem Begun.minted_nested (h : Begun s s₁ ticket) {site : Site} {r : Resolution} :
    Minted s₁ (nestedMeta m site r ticket) := by
  intro t ht
  rw [show metaMultisourceString _ REPORT_TICKET = some ticket from metaTicket_childMeta ..] at ht
  rw [← Option.some.inj ht]
  exact h.issued

end Begun

/-- A load begins, processes what was found and finishes. -/
theorem exec_begin {site : Site} {r : Resolution} {result : ActionResult}
    (hpub : s.published = some parser) (hclean : Clean s)
    (h : Execs engine W s (load options m site r r.fullPath) result s') :
    ∃ s₁ ticket r' s₂, Begun s s₁ ticket ∧
      Execs engine W s₁
        (process options r (nestedMeta m site r ticket) parser (metaChain m).length) r' s₂ ∧
      Execs engine W s₂ (finish m site r.fullPath ticket r') result s' := by
  obtain ⟨_, s₁, hedge, h⟩ := exec_bind.mp h
  obtain ⟨hpub₁, hnext₁, hslots₁⟩ := exec_recordEdge hedge
  obtain ⟨ticket, s₂, hticket, h⟩ := exec_bind.mp h
  cases exec_ask.mp hticket
  obtain ⟨published, s₃, hget, h⟩ := exec_bind.mp h
  cases exec_ask.mp hget
  have hpub₂ : s₁.ticket.2.published = some parser := hpub₁.trans hpub
  rw [hpub₂] at h
  obtain ⟨r', s₃, hprocess, hfinish⟩ := exec_bind.mp h
  have hnext : s.next ≤ s₁.ticket.2.next := by
    show s.next ≤ s₁.next + 1
    omega
  have hfree : s.slots.get s₁.ticket.1 = none := by
    rw [Shared.ticket, hnext₁]
    exact hclean s.next le_rfl
  have hbegun : Begun s s₁.ticket.2 s₁.ticket.1 :=
    ⟨hpub₁, hnext, hslots₁, hfree, s₁.next, Nat.lt_succ_self _, rfl⟩
  exact ⟨_, _, r', s₃, hbegun, hprocess, hfinish⟩

/-- A load that starts no parse finds its slot empty. -/
theorem exec_finish_begun {s₁ : Shared I} {site : Site} {fullpath ticket : Str} {r : Resolution}
    {result : ActionResult} (hb : Begun s s₁ ticket) (hm : Minted s m)
    (h : Execs engine W s₁ (finish m site fullpath ticket r) result s') :
    Acts site (finished fullpath r none) result ∧ Leaves m s (finished fullpath r none) s' := by
  have hslot : s₁.slots.get ticket = none := by rw [hb.slots, hb.free]
  rw [← hslot]
  exact exec_finish (hb.minted hm) hb.published hb.next (fun x _ => by rw [hb.slots]) hb.free h

/-- A load whose nested parse came to `o` finds in its slot what that parse left there. -/
theorem exec_finish_nested {s₁ s₂ : Shared I} {site : Site} {fullpath ticket : Str}
    {r r' : Resolution} {result : ActionResult} {o : Outcome} (hb : Begun s s₁ ticket)
    (hm : Minted s m) (hleft : Leaves (nestedMeta m site r ticket) s₁ o s₂)
    (h : Execs engine W s₂ (finish m site fullpath ticket r') result s') :
    let slot := leftSlot (nestedMeta m site r ticket) o ticket
    Acts site (finished fullpath r' slot) result ∧ Leaves m s (finished fullpath r' slot) s' := by
  intro slot
  have hslot : s₂.slots.get ticket = slot := by
    rw [hleft.slots, hb.slots, hb.free]
    show (slot <|> none) = slot
    cases slot <;> rfl
  have hother (x : Str) (hx : x ≠ ticket) : s₂.slots.get x = s.slots.get x := by
    rw [hleft.slots, hb.slots]
    cases o with
    | raised report =>
      rw [leftSlot, show metaMultisourceString _ REPORT_TICKET = some ticket from
        metaTicket_childMeta .., if_neg fun h => hx (Option.some.inj h).symm]
      rfl
    | _ => rfl
  rw [← hslot]
  exact exec_finish (hleft.minted (hb.minted hm)) (hleft.published.trans hb.published)
    (hb.next.trans hleft.next) hother hb.free h

/-- What a load makes of a nested parse with a value is `settle` of that parse's outcome. -/
theorem finished_of_ok {site : Site} {r : Resolution} {ticket : Str} {o : Outcome} {v : Value}
    (h : Answers o (.ok v)) :
    finished r.fullPath { r with val := v } (leftSlot (nestedMeta m site r ticket) o ticket) =
      settle r o := by
  cases o with
  | value w =>
    obtain rfl := Except.ok.inj h
    cases he : r.err <;> simp [finished, settle, he, reported, errorReport, leftSlot]
  | own e => cases h
  | raised report =>
    obtain ⟨error, he, -⟩ := h
    cases he

/-- The same of a nested parse that failed: a report is taken back from the slot. -/
theorem finished_of_error {site : Site} {r : Resolution} {ticket src : Str} {o : Outcome}
    {error : TabnasError} (hcode : ∀ report, o = .raised report → report.1 ≠ [])
    (h : Answers o (.error error)) :
    finished r.fullPath { r with val := .string src, err := some error }
      (leftSlot (nestedMeta m site r ticket) o ticket) = settle r o := by
  cases o with
  | value v => cases h
  | own e =>
    obtain rfl := Except.error.inj h
    rfl
  | raised report =>
    obtain ⟨error', he, hc, hbag⟩ := h
    obtain rfl := Except.error.inj he
    have hchild : metaMultisourceString (nestedMeta m site r ticket) REPORT_TICKET = some ticket :=
      metaTicket_childMeta ..
    have hcodeOf : codeOf error = report.1 := by
      rw [codeOf, hc, if_neg (hcode report rfl)]
    simp [finished, settle, leftSlot, hchild, hcodeOf, reported]

/-- A load of `r`, whose nested parses come to their outcomes. -/
theorem exec_load (hproc : options.processor = defaultProcessors) {site : Site} {r : Resolution}
    {result : ActionResult} (hpub : s.published = some parser) (hclean : Clean s)
    (hm : Minted s m) (ha : Admits engine W m site r)
    (hnest : NestedEnds engine W parser m site r)
    (h : Execs engine W s (load options m site r r.fullPath) result s') :
    ∃ o, Ends engine W parser m (.reference site) o ∧ Acts site o result ∧ Leaves m s o s' := by
  obtain ⟨s₁, ticket, r', s₂, hb, hprocess, hfinish⟩ := exec_begin hpub hclean h
  rcases exec_process hproc hprocess with ⟨htext, rfl, rfl⟩ | ⟨src, answer, htext, hanswer, rfl⟩
  · -- no nested parse: the slot is empty
    obtain ⟨hacts, hleaves⟩ := exec_finish_begun hb hm hfinish
    refine ⟨_, .plain ha htext ?_, hacts, hleaves⟩
    cases he : r.err <;> simp [finished, settle, he, reported, errorReport]
  · rcases exec_parseNested hanswer with ⟨hd, reason, hspawn, rfl, rfl⟩ | hparse
    · obtain ⟨hacts, hleaves⟩ := exec_finish_begun hb hm hfinish
      exact ⟨_, .noThread ha htext hd hspawn rfl, hacts, hleaves⟩
    · obtain ⟨o, hends, hanswers, hleft⟩ := hnest _ src _ _ _ htext (hb.published.trans hpub)
        (hb.clean hclean) hb.minted_nested hparse
      obtain ⟨hacts, hleaves⟩ := exec_finish_nested hb hm hleft hfinish
      refine ⟨_, .nested ha htext hends ?_, hacts, hleaves⟩
      cases answer with
      | ok v => exact finished_of_ok hanswers
      | error e => exact finished_of_error hends.code_ne_nil hanswers

theorem exec_directiveAction (hproc : options.processor = defaultProcessors) {site : Site}
    {result : ActionResult} (hpub : s.published = some parser) (hclean : Clean s)
    (hm : Minted s m) (hnest : ∀ r, Admits engine W m site r → NestedEnds engine W parser m site r)
    (h : Execs engine W s (directiveAction options engine.float m site) result s') :
    ∃ o, Ends engine W parser m (.reference site) o ∧ Acts site o result ∧ Leaves m s o s' := by
  obtain ⟨r, s₁, hresolve, h⟩ := exec_bind.mp h
  cases exec_ask.mp hresolve with
  | resolve hr =>
    by_cases hfound : r.found = true
    · rw [if_pos hfound] at h
      cases hc : chainReport options.maxDepth (metaChain m) r.fullPath with
      | some report =>
        rw [hc] at h
        obtain ⟨hacts, hleaves⟩ := exec_fail hm h
        exact ⟨_, .refused hr hfound hc, hacts, hleaves⟩
      | none =>
        rw [hc] at h
        have ha : Admits engine W m site r := ⟨hr, hfound, hc⟩
        exact exec_load hproc hpub hclean hm ha (hnest r ha) h
    · rw [if_neg hfound] at h
      obtain ⟨hacts, hleaves⟩ := exec_fail hm h
      exact ⟨_, .notFound hr (by simpa using hfound), hacts, hleaves⟩

theorem exec_run (hproc : options.processor = defaultProcessors) {tree : Parse}
    {answer : Except TabnasError Value}
    (hpub : ∀ site next, tree = .act site next → s.published = some parser) (hclean : Clean s)
    (hm : Minted s m)
    (hnest : ∀ site r, Admits engine W m site r → NestedEnds engine W parser m site r)
    (h : Execs engine W s (run engine m tree) answer s') :
    ∃ o, Ends engine W parser m (.source tree) o ∧ Answers o answer ∧ Leaves m s o s' := by
  induction tree generalizing s with
  | done result =>
    cases result with
    | ok v =>
      obtain ⟨rfl, rfl⟩ := exec_ret.mp h
      exact ⟨_, .value, rfl, rfl, le_rfl, fun _ => rfl⟩
    | error e =>
      obtain ⟨rfl, rfl⟩ := exec_ret.mp h
      exact ⟨_, .own, rfl, rfl, le_rfl, fun _ => rfl⟩
  | act site next ih =>
    rw [run] at h
    obtain ⟨result, s₁, haction, hrest⟩ := exec_bind.mp h
    obtain ⟨o, hends, hacts, hleaves⟩ := exec_directiveAction hproc (hpub site next rfl) hclean hm
      (hnest site) haction
    cases o with
    | value v =>
      obtain rfl := hacts
      obtain ⟨o, hends', hanswers, hleaves'⟩ := ih (site.effect v)
        (fun _ _ _ => hleaves.published.trans (hpub site next rfl)) (hleaves.clean hm hclean)
        (hleaves.minted hm) hrest
      exact ⟨o, .next hends hends', hanswers, hleaves.trans_value hleaves'⟩
    | own e => exact absurd hacts id
    | raised report =>
      obtain ⟨token, rfl⟩ := hacts
      obtain ⟨rfl, rfl⟩ := exec_ret.mp hrest
      exact ⟨_, .stop hends, ⟨_, rfl, engine.raise_code .., engine.raise_bag ..⟩, hleaves⟩

/-- A nested parse does not publish, and a top-level one does before its first reference. -/
theorem exec_parseWithMeta (hproc : options.processor = defaultProcessors) {src : Str}
    {answer : Except TabnasError Value}
    (hpub : isNestedMeta m = true → s.published = some parser) (hclean : Clean s) (hm : Minted s m)
    (hnest : ∀ site r, Admits engine W m site r → NestedEnds engine W parser m site r)
    (h : Execs engine W s (parseWithMeta engine parser src m) answer s') :
    ∃ o s₁, Ends engine W parser m (.source (engine.parse parser src m)) o ∧ Answers o answer ∧
      Leaves m s₁ o s' ∧ (s₁ = s ∨ isNestedMeta m = false ∧ s₁ = s.publish parser) := by
  obtain ⟨_, s₁, hprepare, hrun⟩ := exec_bind.mp h
  unfold prepare at hprepare
  split_ifs at hprepare with hc
  · rw [Bool.and_eq_true, Bool.not_eq_true'] at hc
    cases exec_ask.mp hprepare
    obtain ⟨o, hends, hanswers, hleaves⟩ := exec_run (s := s.publish parser) hproc
      (fun _ _ _ => rfl) hclean hm hnest hrun
    exact ⟨o, _, hends, hanswers, hleaves, .inr ⟨hc.2, rfl⟩⟩
  · obtain ⟨-, rfl⟩ := exec_ret.mp hprepare
    have hact (site : Site) (next : Effect → Parse)
        (ht : engine.parse parser src m = .act site next) : isNestedMeta m = true := by
      simpa [engine.marked _ _ _ _ _ ht] using hc
    obtain ⟨o, hends, hanswers, hleaves⟩ := exec_run hproc
      (fun site next ht => hpub (hact site next ht)) hclean hm hnest hrun
    exact ⟨o, _, hends, hanswers, hleaves, .inl rfl⟩

/-- Parses nested in a load come to their outcomes: each lengthens the chain, which the cap
bounds. -/
theorem nestedEnds (hproc : options.processor = defaultProcessors) {site : Site} {r : Resolution}
    (ha : Admits engine W m site r) : NestedEnds engine W parser m site r := by
  induction hd : options.maxDepth - (metaChain m).length using Nat.strong_induction_on
    generalizing m site r with
  | _ d ih =>
    intro ticket src s s' answer htext hpub hclean hm h
    obtain ⟨full, hfull⟩ := Option.isSome_iff_exists.mp (nestedText_eq_some options htext).2
    have hlt := (chainReport_eq_none ha.checked).2
    have hlen : (metaChain (nestedMeta m site r ticket)).length = (metaChain m).length + 1 := by
      rw [metaChain_childMeta, hfull, Option.toList_some, List.length_append, List.length_singleton]
    obtain ⟨o, s₁, hends, hanswers, hleaves, rfl | ⟨hno, -⟩⟩ := exec_parseWithMeta hproc
      (fun _ => hpub) hclean hm (fun site' r' ha' => ih _ (by omega) ha' rfl) h
    · exact ⟨o, hends, hanswers, hleaves⟩
    · exact absurd (isNestedMeta_childMeta ..) (by rw [hno]; simp)

/-- A top-level parse comes to its outcome. -/
theorem exec_top (hproc : options.processor = defaultProcessors) {src : Str}
    {answer : Except TabnasError Value} (htop : TopLevel (.parse parser src m)) (hs : s.slots = [])
    (h : Execs engine W s (body engine (.parse parser src m)) answer s') :
    ∃ o, Ends engine W parser m (.source (engine.parse parser src m)) o ∧ Answers o answer := by
  obtain ⟨o, s₁, hends, hanswers, -⟩ := exec_parseWithMeta hproc
    (fun hn => absurd hn (by rw [htop.1]; simp)) (fun k _ => by rw [hs]; rfl)
    (fun t ht => absurd (ht.symm.trans htop.2) (by simp)) (fun _ _ ha => nestedEnds hproc ha) h
  exact ⟨o, hends, hanswers⟩

end Parses

end MultiSource
