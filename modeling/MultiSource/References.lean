import MultiSource.Sources

/-!
# References between sources

Over a source set, and with an engine that reads nothing but the text, the outcome of a parse is a
matter of the source it reads and of the chain above it, and a value of the source alone. That
makes the references of a source a graph.
-/

namespace MultiSource

open Interaction

/-- The outcome of a load of `full` whose own parse came to `o`. -/
def carry (full : Str) : Outcome → Outcome
  | .value v => .value v
  | .own e => .raised (errorReport full e.error)
  | .raised report => .raised report

variable (S : SourceSet) (float : ExpFormat) (tree : Str → Parse)

/-- The outcomes in the source at `path`, or in the document, below `chain`. Nothing of the
metadata but these two is left. -/
inductive Comes (maxDepth : ℕ) (refused : Str → Prop) :
    Option Str → List Str → Task → Outcome → Prop
  | value {path : Option Str} {chain : List Str} {v : Value} :
      Comes maxDepth refused path chain (.source (.done (.ok v))) (.value v)
  | own {path : Option Str} {chain : List Str} {e : OwnError} :
      Comes maxDepth refused path chain (.source (.done (.error e))) (.own e)
  | next {path : Option Str} {chain : List Str} {site : Site} {next : Effect → Parse} {v : Value}
      {o : Outcome} : Comes maxDepth refused path chain (.reference site) (.value v) →
      Comes maxDepth refused path chain (.source (next (site.effect v))) o →
      Comes maxDepth refused path chain (.source (.act site next)) o
  | stop {path : Option Str} {chain : List Str} {site : Site} {next : Effect → Parse}
      {report : Report} : Comes maxDepth refused path chain (.reference site) (.raised report) →
      Comes maxDepth refused path chain (.source (.act site next)) (.raised report)
  | missing {path : Option Str} {chain : List Str} {site : Site} :
      S.names (referenceOf float site.body) path = none →
      Comes maxDepth refused path chain (.reference site) (.raised
        (notFoundReport (referenceOf float site.body)
          (S.resolve (referenceOf float site.body) path)))
  | refused {path : Option Str} {chain : List Str} {site : Site} {full : Str} {report : Report} :
      S.names (referenceOf float site.body) path = some full →
      chainReport maxDepth chain full = some report →
      Comes maxDepth refused path chain (.reference site) (.raised report)
  | text {path : Option Str} {chain : List Str} {site : Site} {full src : Str} :
      S.names (referenceOf float site.body) path = some full →
      chainReport maxDepth chain full = none → S.text full = some src → isParsed full = false →
      Comes maxDepth refused path chain (.reference site) (.value (.string src))
  | noThread {path : Option Str} {chain : List Str} {site : Site} {full reason : Str} :
      S.names (referenceOf float site.body) path = some full →
      chainReport maxDepth chain full = none → isParsed full = true → refused reason →
      Comes maxDepth refused path chain (.reference site) (carry full (.own (threadError reason)))
  | nested {path : Option Str} {chain : List Str} {site : Site} {full src : Str} {o o' : Outcome} :
      S.names (referenceOf float site.body) path = some full →
      chainReport maxDepth chain full = none → S.text full = some src → isParsed full = true →
      Comes maxDepth refused (some full) (chain ++ [full]) (.source (tree src)) o' →
      o = carry full o' → Comes maxDepth refused path chain (.reference site) o

/-- The values, which have nothing to do with the chain. -/
inductive Means : Option Str → Task → Value → Prop
  | done {path : Option Str} {v : Value} : Means path (.source (.done (.ok v))) v
  | next {path : Option Str} {site : Site} {next : Effect → Parse} {v w : Value} :
      Means path (.reference site) v → Means path (.source (next (site.effect v))) w →
      Means path (.source (.act site next)) w
  | text {path : Option Str} {site : Site} {full src : Str} :
      S.names (referenceOf float site.body) path = some full → S.text full = some src →
      isParsed full = false → Means path (.reference site) (.string src)
  | nested {path : Option Str} {site : Site} {full src : Str} {v : Value} :
      S.names (referenceOf float site.body) path = some full → S.text full = some src →
      isParsed full = true → Means (some full) (.source (tree src)) v →
      Means path (.reference site) v

variable {S float tree}

theorem Means.unique {path : Option Str} {task : Task} {v w : Value}
    (hv : Means S float tree path task v) (hw : Means S float tree path task w) : v = w := by
  induction hv generalizing w with
  | done =>
    cases hw
    rfl
  | next _ _ ih ih' =>
    cases hw with
    | next h h' =>
      obtain rfl := ih h
      exact ih' h'
  | text hn ht hp =>
    cases hw with
    | text hn' ht' _ =>
      obtain rfl := Option.some.inj (hn.symm.trans hn')
      rw [Option.some.inj (ht.symm.trans ht')]
    | nested hn' _ hp' _ =>
      obtain rfl := Option.some.inj (hn.symm.trans hn')
      exact absurd (hp.symm.trans hp') Bool.false_ne_true
  | nested hn ht hp _ ih =>
    cases hw with
    | text hn' _ hp' =>
      obtain rfl := Option.some.inj (hn.symm.trans hn')
      exact absurd (hp'.symm.trans hp) Bool.false_ne_true
    | nested hn' ht' _ h' =>
      obtain rfl := Option.some.inj (hn.symm.trans hn')
      obtain rfl := Option.some.inj (ht.symm.trans ht')
      exact ih h'

section Outcomes

variable {maxDepth : ℕ} {refused : Str → Prop} {path : Option Str} {chain : List Str} {task : Task}

theorem carry_eq_value {full : Str} {o : Outcome} {v : Value} (h : .value v = carry full o) :
    o = .value v := by
  cases o with
  | value w => exact h.symm
  | own e => exact absurd h (by simp [carry])
  | raised report => exact absurd h (by simp [carry])

theorem Comes.means {o : Outcome} (h : Comes S float tree maxDepth refused path chain task o) :
    ∀ v, o = .value v → Means S float tree path task v := by
  induction h with
  | value =>
    rintro _ ⟨⟩
    exact .done
  | own => exact fun _ h => absurd h (by simp)
  | next _ _ ih ih' => exact fun v hv => .next (ih _ rfl) (ih' v hv)
  | stop => exact fun _ h => absurd h (by simp)
  | missing => exact fun _ h => absurd h (by simp)
  | refused => exact fun _ h => absurd h (by simp)
  | text hn _ ht hp =>
    rintro _ ⟨⟩
    exact .text hn ht hp
  | noThread => exact fun _ h => absurd h (by simp [carry])
  | nested hn _ ht hp _ ho ih =>
    rintro v rfl
    exact .nested hn ht hp (ih v (carry_eq_value ho))

end Outcomes

/-! ## Outcomes of parses over a source set -/

section Parses

variable {I : Type} {options : MultiSourceOptions} {engine : Engine I options.markchar}
  {W : World I} {parser : I}

/-- The engine reads the text of a source and nothing else. -/
def Textual (engine : Engine I options.markchar) (tree : Str → Parse) : Prop :=
  ∀ parser src parseMeta, engine.parse parser src parseMeta = tree src

theorem Admits.names (hS : S.Serves W) {m : Value} {site : Site} {r : Resolution}
    (ha : Admits engine W m site r) :
    ∃ spec full src search, r = (Resolution.ofFound spec full src).withSearch search ∧
      S.names (referenceOf engine.float site.body) (sourcePath m) = some full ∧
      S.text full = some src := by
  obtain rfl := hS _ _ _ ha.resolves
  obtain ⟨full, hn, -⟩ := SourceSet.names_of_found ha.found
  obtain ⟨spec, src, search, ht, hr⟩ := SourceSet.of_names hn
  exact ⟨spec, full, src, search, hr, hn, ht⟩

theorem settle_ofFound (spec : PathSpec) (full src : Str) (search : List Str) (o : Outcome) :
    settle ((Resolution.ofFound spec full src).withSearch search) o = carry full o := by
  cases o <;> rfl

/-- Over a source set, what is left of the metadata is the source and the chain. -/
theorem Ends.comes (hproc : options.processor = defaultProcessors) (hS : S.Serves W)
    {refused : Str → Prop} (hW : ∀ reason, W.spawns (some reason) → refused reason)
    (htree : Textual engine tree) {m : Value} {task : Task} {o : Outcome}
    (h : Ends engine W parser m task o) :
    Comes S engine.float tree options.maxDepth refused (sourcePath m) (metaChain m) task o := by
  induction h with
  | value => exact .value
  | own => exact .own
  | next _ _ ih ih' => exact .next ih ih'
  | stop _ ih => exact .stop ih
  | @notFound m site r hr hfound =>
    obtain rfl := hS _ _ _ hr
    exact .missing (by rw [SourceSet.names, if_neg (by rw [hfound]; simp)])
  | refused hr hfound hc =>
    obtain rfl := hS _ _ _ hr
    obtain ⟨full, hn, hf⟩ := SourceSet.names_of_found hfound
    exact .refused hn (hf ▸ hc)
  | plain ha ht ho =>
    obtain ⟨spec, full, src, search, rfl, hn, hsrc⟩ := ha.names hS
    rw [nestedText_ofFound hproc] at ht
    have hp : isParsed full = false := by
      cases hp : isParsed full with
      | false => rfl
      | true => simp [hp] at ht
    rw [settle_ofFound, plainValue_ofFound hproc hp] at ho
    obtain rfl := ho
    exact .text hn ha.checked hsrc hp
  | noThread ha ht _ hs ho =>
    obtain ⟨spec, full, src, search, rfl, hn, hsrc⟩ := ha.names hS
    rw [nestedText_ofFound hproc] at ht
    rw [settle_ofFound] at ho
    obtain rfl := ho
    exact .noThread hn ha.checked (by by_contra hp; simp [hp] at ht) (hW _ hs)
  | nested ha ht _ ho ih =>
    obtain ⟨spec, full, src, search, rfl, hn, hsrc⟩ := ha.names hS
    rw [nestedText_ofFound hproc] at ht
    split_ifs at ht with hp
    obtain rfl := Option.some.inj ht
    rw [settle_ofFound] at ho
    rw [htree, sourcePath_childMeta, metaChain_childMeta] at ih
    exact .nested hn ha.checked hsrc hp ih ho

end Parses

end MultiSource
