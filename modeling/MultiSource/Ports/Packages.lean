import MultiSource.Ports.Files
import MultiSource.Ports.MemMap

/-!
# Which file of a package the ports pick

A package folder has three groups of candidates: the reference as a file, what the `main` of its
manifest names, and the index files. Rust tries them in this order. Go tries the index files before
the `main`.
-/

namespace MultiSource.Ports

open Segments
open Go (Forward)

/-! ## Groups of candidates -/

/-- No candidate reads. -/
def Unread (read : Str → Option Str) (candidates : List Str) : Prop :=
  ∀ q ∈ candidates, read q = none

/-- `p` is the first of the candidates that reads. -/
def FirstRead (read : Str → Option Str) (candidates : List Str) (p src : Str) : Prop :=
  ∃ pre post, candidates = pre ++ p :: post ∧ Unread read pre ∧ read p = some src

section Groups

variable {read : Str → Option Str} {candidates : List Str} {p src : Str}

theorem unread_iff : Unread read candidates ↔ firstLoaded read candidates = none :=
  firstLoaded_eq_none_iff.symm

theorem firstRead_iff : FirstRead read candidates p src ↔
    firstLoaded read candidates = some (p, src) := by
  constructor
  · rintro ⟨pre, post, rfl, hpre, hp⟩
    rw [firstLoaded_append, unread_iff.mp hpre, firstLoaded, hp]
    rfl
  · exact firstLoaded_eq_some

theorem FirstRead.mem (h : FirstRead read candidates p src) :
    p ∈ candidates ∧ read p = some src := by
  obtain ⟨pre, post, rfl, -, hp⟩ := h
  exact ⟨by simp, hp⟩

/-- A list in two orders of its last two groups: the first that reads is the same, unless a file of
each group reads, none of the first reads, and the two are not one. -/
theorem orders_agree_iff (read : Str → Option Str) (files mains indexes : List Str) :
    firstLoaded read (files ++ (mains ++ indexes)) =
        firstLoaded read (files ++ (indexes ++ mains)) ↔
      (∃ p src, FirstRead read files p src) ∨ Unread read mains ∨
        (∃ p src, FirstRead read mains p src ∧ FirstRead read indexes p src) ∨
        Unread read indexes := by
  simp only [unread_iff, firstRead_iff, firstLoaded_append]
  cases firstLoaded read files with
  | some hit => simp [Prod.ext_iff]
  | none =>
    cases firstLoaded read indexes with
    | none => simp
    | some hit => cases firstLoaded read mains <;> simp [Prod.ext_iff, eq_comm]

/-- A group before the last goes unnoticed where a file before it reads, or none of it does, or the
first of it is that of the last. -/
theorem group_unnoticed_iff (read : Str → Option Str) (files mains indexes : List Str) :
    firstLoaded read (files ++ (mains ++ indexes)) = firstLoaded read (files ++ indexes) ↔
      (∃ p src, FirstRead read files p src) ∨ Unread read mains ∨
        ∃ p src, FirstRead read mains p src ∧ FirstRead read indexes p src := by
  simp only [unread_iff, firstRead_iff, firstLoaded_append]
  cases firstLoaded read files with
  | some hit => simp [Prod.ext_iff]
  | none =>
    cases firstLoaded read mains with
    | none => simp
    | some hit => cases firstLoaded read indexes <;> simp [Prod.ext_iff, eq_comm]

end Groups

/-! ## Inside a package folder -/

/-- The candidates that are no index file, and the index files. -/
def filesOf (target : Str) (exts : List Str) : List Str :=
  (buildPotentials target exts).filter fun candidate => !isIndexOf candidate target

def indexesOf (target : Str) (exts : List Str) : List Str :=
  (buildPotentials target exts).filter fun candidate => isIndexOf candidate target

/-- The candidates of the `main` that the manifest of `target` declares. -/
def mainsOf (read manifest : Str → Option Str) (join : List Str → Str) (target : Str)
    (exts : List Str) : List Str :=
  match (read (join [target, "package.json".toList])).bind manifest with
  | some main => if main = [] then [] else buildPotentials (join [target, main]) exts
  | none => []

theorem dropPrefix_append (target rest : Str) : (target ++ rest).dropPrefix? target = some rest :=
  List.dropPrefix?_append_of_beq rest (beq_self_eq_true target)

theorem isIndexOf_self (target : Str) : isIndexOf target target = false := by
  have h := dropPrefix_append target []
  rw [List.append_nil] at h
  unfold isIndexOf
  rw [h]

theorem isIndexOf_ext (target t : Str) : isIndexOf (target ++ '.' :: t) target = false := by
  unfold isIndexOf
  rw [dropPrefix_append]
  rfl

theorem isIndexOf_index (target t : Str) :
    isIndexOf (target ++ "/index.".toList ++ t) target = true := by
  unfold isIndexOf
  rw [List.append_assoc, dropPrefix_append]
  rfl

/-- A list in two groups, taken apart and put together. -/
theorem groups_append {group : Str → Bool} {as bs : List Str} (ha : ∀ c ∈ as, group c = false)
    (hb : ∀ c ∈ bs, group c = true) :
    ((as ++ bs).filter fun c => !group c) ++ (as ++ bs).filter group = as ++ bs := by
  have ha₁ : (as.filter fun c => !group c) = as :=
    List.filter_eq_self.mpr fun c hc => by rw [ha c hc]; rfl
  have ha₂ : as.filter group = [] :=
    List.filter_eq_nil_iff.mpr fun c hc => by rw [ha c hc]; exact Bool.false_ne_true
  have hb₁ : (bs.filter fun c => !group c) = [] :=
    List.filter_eq_nil_iff.mpr fun c hc => by rw [hb c hc]; exact Bool.false_ne_true
  have hb₂ : bs.filter group = bs := List.filter_eq_self.mpr hb
  rw [List.filter_append, List.filter_append, ha₁, ha₂, hb₁, hb₂, List.append_nil, List.nil_append]

/-- With dotted extensions, the index files come after all others. -/
theorem filesOf_append_indexesOf (target : Str) {exts : List Str}
    (h : ∀ ext ∈ exts, ∃ t, ext = '.' :: t) :
    filesOf target exts ++ indexesOf target exts = buildPotentials target exts := by
  have hself : ∀ c ∈ [target], isIndexOf c target = false := by
    intro c hc
    rw [List.mem_singleton.mp hc, isIndexOf_self]
  have hfiles : ∀ c ∈ [target] ++ exts.map (target ++ ·), isIndexOf c target = false := by
    intro c hc
    rcases List.mem_append.mp hc with hc | hc
    · exact hself c hc
    · obtain ⟨ext, he, rfl⟩ := List.mem_map.mp hc
      obtain ⟨t, rfl⟩ := h ext he
      exact isIndexOf_ext target t
  have hindex : ∀ c ∈ exts.map (target ++ "/index".toList ++ ·), isIndexOf c target = true := by
    intro c hc
    obtain ⟨ext, he, rfl⟩ := List.mem_map.mp hc
    obtain ⟨t, rfl⟩ := h ext he
    have hc : target ++ "/index".toList ++ '.' :: t = target ++ "/index.".toList ++ t := by simp
    rw [hc, isIndexOf_index]
  have hfolder : ∀ {folder : Str}, ∀ c ∈ exts.map (target ++ "/index.".toList ++ folder ++ ·),
      isIndexOf c target = true := by
    intro folder c hc
    obtain ⟨ext, -, rfl⟩ := List.mem_map.mp hc
    rw [List.append_assoc _ folder, isIndexOf_index]
  unfold filesOf indexesOf buildPotentials
  dsimp only
  split_ifs with hn hdot hs
  · rfl
  · simpa using groups_append hself (List.forall_mem_nil _)
  · rw [List.append_nil]
    exact groups_append hfiles hindex
  · rw [List.append_assoc]
    exact groups_append hfiles fun c hc => (List.mem_append.mp hc).elim (hindex c) (hfolder c)

theorem tryEach_none {load : Str → Option Str} {candidates search search' : List Str}
    (h : tryEach load candidates search = (none, search')) :
    firstLoaded load candidates = none := by
  rw [← tryEach_fst load candidates search, h]

theorem tryEach_some {load : Str → Option Str} {candidates search search' : List Str}
    {hit : Str × Str} (h : tryEach load candidates search = (some hit, search')) :
    firstLoaded load candidates = some hit := by
  rw [← tryEach_fst load candidates search, h]

/-- The order of Rust, which is that of the canonical port. -/
theorem rust_order (manifest load : Str → Option Str) (ops : PathOps)
    (nodeModules reference : Str) (exts search : List Str) :
    let target := ops.join [nodeModules, reference]
    (PkgResolver.resolveInPkgDir manifest ops load nodeModules reference exts search).1 =
      firstLoaded load (filesOf target exts ++
        (mainsOf load manifest ops.join target exts ++ indexesOf target exts)) := by
  intro target
  rw [firstLoaded_append, firstLoaded_append]
  unfold PkgResolver.resolveInPkgDir PkgResolver.manifestMain mainsOf
  dsimp only
  split
  · rename_i hit search' hf
    have hfiles : firstLoaded load (filesOf target exts) = some hit := tryEach_some hf
    rw [hfiles]
    rfl
  · rename_i search' hf
    have hfiles : firstLoaded load (filesOf target exts) = none := tryEach_none hf
    rw [hfiles]
    cases (load (ops.join [target, "package.json".toList])).bind manifest with
    | none => exact tryEach_fst load (indexesOf target exts) _
    | some main =>
      dsimp only
      split_ifs with hm
      · exact tryEach_fst load (indexesOf target exts) _
      · dsimp only
        split
        · rename_i hit search'' hmain
          rw [tryEach_some hmain]
          rfl
        · rename_i search'' hmain
          rw [tryEach_none hmain]
          exact tryEach_fst load (indexesOf target exts) _

theorem go_order (manifest : Str → Option Str) (v : Go.Vfs) (nodeModules ref : Str)
    (exts search : List Str) :
    let target := v.join [nodeModules, ref]
    (Go.resolveInPkgDir v manifest nodeModules ref exts search).1 =
      firstLoaded v.readFile (buildPotentials target exts ++
        mainsOf v.readFile manifest v.join target exts) := by
  intro target
  rw [firstLoaded_append]
  unfold Go.resolveInPkgDir mainsOf
  dsimp only
  rw [goBuildPotentials_eq]
  split
  · rename_i hit search' ht
    rw [tryEach_some ht]
    rfl
  · rename_i search' ht
    rw [tryEach_none ht]
    cases (v.readFile (v.join [target, "package.json".toList])).bind manifest with
    | none => rfl
    | some main =>
      dsimp only
      split_ifs with hm
      · rfl
      · rw [tryEach_fst, goBuildPotentials_eq]
        rfl

/-! ## Both ports -/

section Both

variable (manifestRust manifestGo : Str → Option Str) (fs : MapFs) (options : MultiSourceOptions)
variable (nodeModules reference : Str)

/-- Both ports pick the same file, if any, and it is the first in the canonical order: the reference
as a file, then the `main`, then an index file. -/
def SamePackageFile : Prop :=
  let exts := options.normalize.implicitExt
  let target := MapFs.join [nodeModules, reference]
  let mains := mainsOf fs.readFile manifestRust MapFs.join target exts
  ∀ searchRust searchGo,
    let rust := PkgResolver.resolveInPkgDir manifestRust MapFs.pathOps fs.readFile nodeModules
      reference exts searchRust
    let go := Go.resolveInPkgDir (Go.ioVfs fs) manifestGo nodeModules reference exts searchGo
    rust.1 = go.1 ∧
      rust.1 = firstLoaded fs.readFile (filesOf target exts ++ (mains ++ indexesOf target exts))

/-- A package whose names are spelt alike in both ports: no candidate of it holds a backslash or a
step up, its `main` holds no backslash, and the two readers of its manifest find the same `main`. -/
structure PlainPackage (target : Str) (exts : List Str) : Prop where
  candidates : ∀ c ∈ buildPotentials target exts, Forward c
  manifest : ∀ text, fs.readFile (MapFs.join [target, "package.json".toList]) = some text →
    manifestGo text = manifestRust text
  main : ∀ main, (fs.readFile (MapFs.join [target, "package.json".toList])).bind manifestRust =
    some main → '\\' ∉ main
  mains : ∀ c ∈ mainsOf fs.readFile manifestRust MapFs.join target exts, Forward c

/-- The declared `main` climbs above the start of the tree. -/
def MainClimbs (target : Str) : Prop :=
  ∃ main, (fs.readFile (MapFs.join [target, "package.json".toList])).bind manifestRust = some main ∧
    Climbs (target ++ '/' :: main)

/-- A package whose index files do not stand in the way of its `main`: the reference is a file, or
no file of the `main` is there, or it is the first index file too, or there is no index file and the
`main` is inside the tree. -/
def ClearMain : Prop :=
  let exts := options.normalize.implicitExt
  let target := MapFs.join [nodeModules, reference]
  let mains := mainsOf fs.readFile manifestRust MapFs.join target exts
  (∃ p src, FirstRead fs.readFile (filesOf target exts) p src) ∨ Unread fs.readFile mains ∨
    (∃ p src, FirstRead fs.readFile mains p src ∧
      FirstRead fs.readFile (indexesOf target exts) p src) ∨
    Unread fs.readFile (indexesOf target exts) ∧ ¬ MainClimbs manifestRust fs target

theorem mem_files_or_indexes {target c : Str} {exts : List Str}
    (h : c ∈ filesOf target exts ∨ c ∈ indexesOf target exts) : c ∈ buildPotentials target exts :=
  h.elim List.mem_of_mem_filter List.mem_of_mem_filter

variable {manifestRust manifestGo fs}

/-! ## The declared main -/

section Main

variable {target main c : Str} {exts : List Str}

/-- A path in normal form is relative. -/
theorem head?_of_clean (ht : clean target = target) (main : Str) :
    (target ++ '/' :: main).head? ≠ some '/' := by
  have hseg : ∀ s ∈ cleanSegments target, IsSegment s := fun s => isSegment_of_mem_clean
  rw [List.head?_append_of_ne_nil _ (ht ▸ spell_ne_nil hseg), ← ht, clean, spell]
  split_ifs with hnil
  · decide
  · have hnormal : Go.Normal [] (cleanSegments target) (joined '/' (cleanSegments target)) :=
      ⟨List.forall_mem_nil _, fun s hs => ⟨(hseg s hs).1.1, (hseg s hs).1.2, (hseg s hs).2.1⟩, hnil,
        rfl⟩
    exact hnormal.head?_ne

theorem go_join (ht : clean target = target) (hm : main ≠ []) :
    (Go.ioVfs fs).join [target, main] = Go.fsClean (Go.clean (target ++ '/' :: main)) := by
  have hne : target ≠ [] := ht ▸ spell_ne_nil fun s => isSegment_of_mem_clean
  have hf : [target, main].filter (fun e => e ≠ []) = [target, main] := by
    simp [hne, hm]
  show Go.fsClean (Go.pathJoin [target, main]) = _
  unfold Go.pathJoin
  rw [hf, if_neg (List.cons_ne_nil _ _), joined_pair]

/-- A `main` inside the tree is joined alike in both ports. -/
theorem join_of_not_climbs (ht : clean target = target) (hm : main ≠ []) (hs : '\\' ∉ main)
    (hc : ¬ Climbs (target ++ '/' :: main)) :
    (Go.ioVfs fs).join [target, main] = MapFs.join [target, main] := by
  have hseg : ∀ s ∈ cleanSegments (target ++ '/' :: main), IsSegment s :=
    fun s => isSegment_of_mem_clean
  have hslash : '\\' ∉ target ++ '/' :: main := by
    have htarget : '\\' ∉ clean target := not_mem_spell fun s => isSegment_of_mem_clean
    rw [ht] at htarget
    simp [hs, htarget]
  rw [go_join ht hm, clean_of_not_climbs hslash (head?_of_clean ht main) hc, clean,
    (Go.forward_spell hseg).fsClean_eq, clean_spell hseg]
  unfold MapFs.join
  rw [joined_pair]
  rfl

/-- The candidates of a path that begins with a step up climb. -/
theorem climbs_of_mem {full : Str}
    (hf : full = "..".toList ∨ ∃ rest, full = "..".toList ++ '/' :: rest)
    (hc : c ∈ buildPotentials full exts) : c.head? ≠ some '/' ∧ Climbs c := by
  rcases hf with rfl | ⟨rest, rfl⟩
  · obtain rfl : c = "..".toList := List.mem_singleton.mp hc
    exact ⟨by decide, [_], List.prefix_rfl, by decide⟩
  · obtain ⟨t, rfl⟩ := extends_of_mem_buildPotentials hc
    rw [List.append_assoc, List.cons_append]
    refine ⟨by simp, ["..".toList], ?_, by decide⟩
    rw [List.splitOn_append_cons_self]
    exact List.prefix_append ["..".toList] _

/-- Of a `main` that climbs Go reads no candidate. -/
theorem unread_of_climbs (ht : clean target = target) (hm : main ≠ [])
    (hc : Climbs (target ++ '/' :: main)) :
    Unread (Go.ioVfs fs).readFile (buildPotentials ((Go.ioVfs fs).join [target, main]) exts) := by
  obtain ⟨lead, hne, h⟩ := clean_of_climbs (head?_of_clean ht main) hc
  rw [go_join ht hm, h.fsClean_eq]
  obtain ⟨u, lead, rfl⟩ := List.exists_cons_of_ne_nil hne
  obtain rfl := h.lead_up u List.mem_cons_self
  intro c hmem
  have hbegin : Go.clean (target ++ '/' :: main) = "..".toList ∨
      ∃ rest, Go.clean (target ++ '/' :: main) = "..".toList ++ '/' :: rest := by
    rw [h.path_eq, List.cons_append]
    cases lead ++ collapse OsPath.blank isUp ((target ++ '/' :: main).splitOn '/') with
    | nil => exact .inl rfl
    | cons s segs => exact .inr ⟨joined '/' (s :: segs), rfl⟩
  obtain ⟨hr, hclimbs⟩ := climbs_of_mem hbegin hmem
  show (if Go.validPath (Go.fsClean c) then _ else none) = none
  rw [validPath_of_climbs hr hclimbs]
  rfl

end Main

section Plain

variable {target : Str} {exts : List Str} (ht : clean target = target)
  (h : PlainPackage manifestRust manifestGo fs target exts)

include h

/-- What a plain package has for candidates reads alike in both ports. -/
theorem PlainPackage.readFile_eq {c : Str}
    (hc : c ∈ filesOf target exts ++ (indexesOf target exts ++
      mainsOf fs.readFile manifestRust MapFs.join target exts)) :
    (Go.ioVfs fs).readFile c = fs.readFile c := by
  rcases List.mem_append.mp hc with hc | hc
  · exact (h.candidates c (mem_files_or_indexes (.inl hc))).readFile_eq fs
  · rcases List.mem_append.mp hc with hc | hc
    · exact (h.candidates c (mem_files_or_indexes (.inr hc))).readFile_eq fs
    · exact (h.mains c hc).readFile_eq fs

include ht

/-- The manifest of a plain package declares one `main` in both ports. -/
theorem manifest_eq : ((Go.ioVfs fs).readFile
    ((Go.ioVfs fs).join [target, "package.json".toList])).bind manifestGo =
      (fs.readFile (MapFs.join [target, "package.json".toList])).bind manifestRust := by
  have hjson : Forward "package.json".toList := ⟨by decide, by decide⟩
  have hfolder : Forward target := by
    rw [← ht]
    exact Go.forward_spell fun s => isSegment_of_mem_clean
  have hpath : Forward (MapFs.join [target, "package.json".toList]) :=
    Go.forward_spell fun s => isSegment_of_mem_clean
  rw [Go.join_eq fs hfolder hjson, hpath.readFile_eq fs]
  exact Option.bind_congr fun text => h.manifest text

/-- Inside the tree the `main` has the same candidates in both ports. -/
theorem mainsOf_eq (hc : ¬ MainClimbs manifestRust fs target) :
    mainsOf (Go.ioVfs fs).readFile manifestGo (Go.ioVfs fs).join target exts =
      mainsOf fs.readFile manifestRust MapFs.join target exts := by
  unfold mainsOf
  rw [manifest_eq ht h]
  cases hm : (fs.readFile (MapFs.join [target, "package.json".toList])).bind manifestRust with
  | none => rfl
  | some main =>
    dsimp only
    split_ifs with hne
    · rfl
    · rw [join_of_not_climbs ht hne (h.main main hm) fun hclimbs => hc ⟨main, hm, hclimbs⟩]

/-- Outside the tree Go reads no candidate of the `main`. -/
theorem unread_mainsOf (hc : MainClimbs manifestRust fs target) :
    Unread (Go.ioVfs fs).readFile
      (mainsOf (Go.ioVfs fs).readFile manifestGo (Go.ioVfs fs).join target exts) := by
  obtain ⟨main, hm, hclimbs⟩ := hc
  unfold mainsOf
  rw [manifest_eq ht h, hm]
  dsimp only
  split_ifs with hne
  · exact List.forall_mem_nil _
  · exact unread_of_climbs ht hne hclimbs

end Plain

variable {nodeModules reference}

/-- The two searches, each in its order. -/
theorem same_orders_iff (hn : Forward nodeModules) (hr : Forward reference) :
    let exts := options.normalize.implicitExt
    let target := MapFs.join [nodeModules, reference]
    SamePackageFile manifestRust manifestGo fs options nodeModules reference ↔
      firstLoaded fs.readFile (filesOf target exts ++
        (mainsOf fs.readFile manifestRust MapFs.join target exts ++ indexesOf target exts)) =
      firstLoaded (Go.ioVfs fs).readFile (filesOf target exts ++ (indexesOf target exts ++
        mainsOf (Go.ioVfs fs).readFile manifestGo (Go.ioVfs fs).join target exts)) := by
  have hrust := rust_order manifestRust fs.readFile MapFs.pathOps nodeModules reference
    options.normalize.implicitExt
  have hgo := go_order manifestGo (Go.ioVfs fs) nodeModules reference options.normalize.implicitExt
  rw [Go.join_eq fs hn hr] at hgo
  dsimp only at hgo
  rw [← filesOf_append_indexesOf _ (dotted_ext options), List.append_assoc] at hgo
  constructor
  · intro hsame
    obtain ⟨he, -⟩ := hsame [] []
    exact (hrust []).symm.trans (he.trans (hgo []))
  · intro horders searchRust searchGo
    exact ⟨(hrust searchRust).trans (horders.trans (hgo searchGo).symm), hrust searchRust⟩

end Both

/-- A manifest that declares `lib.json`. -/
def declares (_ : Str) : Option Str := some "lib.json".toList

/-- A package that declares a `main`. -/
def declaredPackage : MapFs := .ofList [
  ("node_modules/p/package.json".toList, "\x7b\"main\":\"lib.json\"\x7d".toList),
  ("node_modules/p/lib.json".toList, "1".toList)]

/-- A package that declares a `main` beside an index file. -/
def indexedPackage : MapFs := declaredPackage.insert "node_modules/p/index.jsonic".toList "2".toList

theorem plain_declared : PlainPackage declares declares declaredPackage
    (MapFs.join ["node_modules".toList, "p".toList])
    MultiSourceOptions.new.normalize.implicitExt where
  candidates := by decide
  manifest _ _ := rfl
  main main h := by
    obtain ⟨text, -, hmain⟩ := Option.bind_eq_some_iff.mp h
    obtain rfl : "lib.json".toList = main := Option.some.inj hmain
    decide
  mains := by decide

end MultiSource.Ports
