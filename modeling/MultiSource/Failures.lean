import MultiSource.Outcome

/-!
# Failures from inside

The code and the bag a caller reads are those of one reference that failed by itself, however many
loads it was nested in.
-/

namespace MultiSource

open Interaction

variable {I : Type} {options : MultiSourceOptions} (engine : Engine I options.markchar)
  (W : World I) (parser : I)

/-- A parse of `tree` gets to the reference at `site`: those before it gave values. -/
inductive Reaches (m : Value) : Parse → Site → Prop
  | here {site : Site} {next : Effect → Parse} : Reaches m (.act site next) site
  | later {site site' : Site} {next : Effect → Parse} {v : Value} :
      Ends engine W parser m (.reference site) (.value v) →
      Reaches m (next (site.effect v)) site' → Reaches m (.act site next) site'

/-- A parse of `tree` under `m` gets to the reference at `site`, under `m'`, through any number of
nested loads. -/
inductive Within : Value → Parse → Value → Site → Prop
  | here {m : Value} {tree : Parse} {site : Site} : Reaches engine W parser m tree site →
      Within m tree m site
  | inside {m m' : Value} {tree : Parse} {site site' : Site} {r : Resolution} {src ticket : Str} :
      Reaches engine W parser m tree site → Admits engine W m site r →
      nestedText options r = some src →
      Within (nestedMeta m site r ticket) (engine.parse parser src (nestedMeta m site r ticket))
        m' site' →
      Within m tree m' site'

/-- The reference at `site` fails by itself: nothing is found, the source is among those it stands
in, there are too many of those, or it is loaded and an error comes back that no reference inside
it raised. That error keeps its code, and has `unexpected` for want of one. -/
inductive Fault (m : Value) (site : Site) : Report → Prop
  | notFound {r : Resolution} : W.resolves (referenceOf engine.float site.body) m r →
      r.found = false → Fault m site (notFoundReport (referenceOf engine.float site.body) r)
  | cycle {r : Resolution} {before after : List Str} :
      W.resolves (referenceOf engine.float site.body) m r → r.found = true →
      metaChain m = before ++ r.fullPath :: after → r.fullPath ∉ before →
      Fault m site (cycleReport (r.fullPath :: after ++ [r.fullPath]) r.fullPath)
  | depth {r : Resolution} : W.resolves (referenceOf engine.float site.body) m r →
      r.found = true → r.fullPath ∉ metaChain m → options.maxDepth ≤ (metaChain m).length →
      Fault m site (depthReport options.maxDepth r.fullPath)
  | engine {r : Resolution} {src ticket : Str} {e : OwnError} : Admits engine W m site r →
      nestedText options r = some src →
      Ends engine W parser (nestedMeta m site r ticket)
        (.source (engine.parse parser src (nestedMeta m site r ticket))) (.own e) →
      Fault m site (errorReport r.fullPath e.error)
  | thread {r : Resolution} {reason : Str} : Admits engine W m site r →
      W.spawns (some reason) → Fault m site (errorReport r.fullPath (spawnError reason))
  | resolver {r : Resolution} {e : TabnasError} : Admits engine W m site r → r.err = some e →
      Fault m site (errorReport r.fullPath e)

variable {engine W parser}

theorem Within.later {m m' : Value} {site site' : Site} {next : Effect → Parse} {v : Value}
    (hv : Ends engine W parser m (.reference site) (.value v))
    (h : Within engine W parser m (next (site.effect v)) m' site') :
    Within engine W parser m (.act site next) m' site' := by
  cases h with
  | here hr => exact .here (.later hv hr)
  | inside hr ha ht hw => exact .inside (.later hv hr) ha ht hw

theorem chainReport_fault {m : Value} {site : Site} {r : Resolution} {report : Report}
    (hr : W.resolves (referenceOf engine.float site.body) m r) (hfound : r.found = true)
    (hc : chainReport options.maxDepth (metaChain m) r.fullPath = some report) :
    Fault engine W parser m site report := by
  rcases chainReport_eq_some hc with ⟨before, after, hchain, hbefore, rfl⟩ | ⟨hnot, hcap, rfl⟩
  · exact .cycle hr hfound hchain hbefore
  · exact .depth hr hfound hnot hcap

theorem settle_value {r : Resolution} {v : Value} {report : Report}
    (h : settle r (.value v) = .raised report) :
    ∃ e, r.err = some e ∧ report = errorReport r.fullPath e := by
  rw [settle] at h
  split at h
  · exact absurd h (by simp)
  · rename_i e he
    exact ⟨e, he, (Outcome.raised.inj h).symm⟩

/-- A report comes from a reference that failed by itself, with the report it failed with. -/
theorem Ends.fault {m : Value} {task : Task} {o : Outcome} (h : Ends engine W parser m task o) :
    ∀ report, o = .raised report →
      match task with
      | .source tree => ∃ m' site', Within engine W parser m tree m' site' ∧
          Fault engine W parser m' site' report
      | .reference site => ∀ next, ∃ m' site', Within engine W parser m (.act site next) m' site' ∧
          Fault engine W parser m' site' report := by
  induction h with
  | value => exact fun _ h => absurd h (by simp)
  | own => exact fun _ h => absurd h (by simp)
  | next hv _ _ ih =>
    intro report ho
    obtain ⟨m', site', hw, hf⟩ := ih report ho
    exact ⟨m', site', hw.later hv, hf⟩
  | stop _ ih => exact fun report ho => ih report ho _
  | notFound hr hno =>
    rintro _ ⟨⟩
    exact fun next => ⟨_, _, .here .here, .notFound hr hno⟩
  | refused hr hfound hc =>
    rintro _ ⟨⟩
    exact fun next => ⟨_, _, .here .here, chainReport_fault hr hfound hc⟩
  | plain ha _ ho =>
    intro report h next
    obtain ⟨e, he, rfl⟩ := settle_value (ho.symm.trans h)
    exact ⟨_, _, .here .here, .resolver ha he⟩
  | noThread ha _ _ hs ho =>
    intro report h next
    obtain rfl := Outcome.raised.inj (ho.symm.trans h)
    exact ⟨_, _, .here .here, .thread ha hs⟩
  | @nested m site r src ticket o o' ha ht hc ho ih =>
    intro report h next
    cases o' with
    | value v =>
      obtain ⟨e, he, rfl⟩ := settle_value (ho.symm.trans h)
      exact ⟨_, _, .here .here, .resolver ha he⟩
    | own e =>
      obtain rfl := Outcome.raised.inj (ho.symm.trans h)
      exact ⟨_, _, .here .here, .engine ha ht hc⟩
    | raised report' =>
      obtain ⟨m', site', hw, hf⟩ := ih report (ho.symm.trans h)
      exact ⟨m', site', .inside .here ha ht hw, hf⟩

end MultiSource
