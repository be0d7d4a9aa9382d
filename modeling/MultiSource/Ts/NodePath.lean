import MultiSource.OsPath

/-!
# `node:path`

The functions of the POSIX path module that the canonical resolvers call.
-/

namespace MultiSource.Ts.NodePath

open Segments

def isUp (segment : Str) : Bool := segment = "..".toList

def normalizeString (path : Str) (allowAboveRoot : Bool) : Str :=
  let segments := path.splitOn '/'
  joined '/' (if allowAboveRoot then collapseUp OsPath.blank isUp segments
    else collapse OsPath.blank isUp segments)

def isAbsolute (path : Str) : Bool := path.head? = some '/'

def normalize (path : Str) : Str :=
  let body := normalizeString path (!isAbsolute path)
  let trailing := if path.getLast? = some '/' then ['/'] else []
  if path = [] then ".".toList
  else if isAbsolute path then '/' :: if body = [] then [] else body ++ trailing
  else if body = [] then '.' :: trailing
  else body ++ trailing

def join (args : List Str) : Str :=
  let args := args.filter fun arg => arg ≠ []
  if args = [] then ".".toList else normalize (joined '/' args)

/-- `resolve` of one path. -/
def resolve (cwd path : Str) : Str :=
  let whole := if isAbsolute path then path else if path = [] then cwd else cwd ++ '/' :: path
  let body := normalizeString whole (!isAbsolute whole)
  if isAbsolute whole then '/' :: body else if body = [] then ".".toList else body

/-- The root of `parse`. -/
def root (path : Str) : Str := if isAbsolute path then ['/'] else []

/-- The folder of `parse`. -/
def dir (path : Str) : Str :=
  match rsplit (· = '/') (trimEnd (· = '/') (path.drop (root path).length)) with
  | some (dir, _) => root path ++ dir
  | none => root path

theorem length_trimEnd_le (p : Char → Bool) (s : Str) : (trimEnd p s).length ≤ s.length := by
  unfold trimEnd
  rw [List.length_reverse]
  exact (List.dropWhile_sublist p).length_le.trans_eq List.length_reverse

theorem length_dir_lt {path : Str} (h : root path ≠ dir path) :
    (dir path).length < path.length := by
  have hroot : (root path).length ≤ path.length := by
    unfold root isAbsolute
    cases path with
    | nil => simp
    | cons c path => split_ifs <;> simp
  unfold dir at h ⊢
  split at h
  · rename_i d b hr
    obtain ⟨c, -, hs, -⟩ := rsplit_eq_some hr
    have hlen := length_trimEnd_le (· = '/') (path.drop (root path).length)
    rw [hs] at hlen
    simp only [List.length_append, List.length_cons, List.length_drop] at hlen ⊢
    omega
  · exact absurd rfl h

/-- The folders above a path, the nearest first. -/
def foldersAbove (path : Str) : List Str :=
  dir path :: if _h : root path = dir path then [] else foldersAbove (dir path)
termination_by path.length
decreasing_by exact length_dir_lt _h

example : normalize "/a/./b//../c/".toList = "/a/c/".toList := by decide
example : normalize "../a/../../b".toList = "../../b".toList := by decide

end MultiSource.Ts.NodePath
