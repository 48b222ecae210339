import Wovyr.Tools.Tool

/-!
This module contains the tools that read and write files of the workspace, and the one that gets a URL. What the
resolver and the servers answer is up to the network.
-/

namespace Wovyr.Tools

-- What stands between the slashes, also where that is nothing, `.` or `..`.
structure Path where
  isAbsolute : Bool
  pieces : List String

def Path.new (s : String) : Path where
  isAbsolute := s.toList.head? = some '/'
  pieces := Text.split '/' s

inductive Entry where
  | file (content : String)
  | directory
  | link (target : Path)

-- What there is, by the names on the way from the root directory.
abbrev FileTree := List String → Option Entry

namespace FileTree

variable (tree : FileTree)

def IsSkipped (piece : String) : Prop :=
  piece = "" ∨ piece = "."

instance : DecidablePred IsSkipped := fun _ =>
  inferInstanceAs (Decidable (_ ∨ _))

/--
How the operating system resolves a path, with a number of links that it follows. If a file is to be created,
the last name can be missing.
-/
def walk (create : Bool) (links : Nat) (cwd : List String) (pieces : List String) : Except String (List String) :=
  match pieces with
  | [] => .ok cwd
  | piece :: rest =>
    if IsSkipped piece then
      walk create links cwd rest
    else if piece = ".." then
      walk create links cwd.dropLast rest
    else
      match tree (cwd ++ [piece]) with
      | none => if create ∧ rest = [] then .ok (cwd ++ [piece]) else .error "No such file or directory (os error 2)"
      | some .directory => walk create links (cwd ++ [piece]) rest
      | some (.file _) => if rest = [] then .ok (cwd ++ [piece]) else .error "Not a directory (os error 20)"
      | some (.link target) =>
        match links with
        | 0 => .error "Too many levels of symbolic links (os error 40)"
        | links + 1 => walk create links (if target.isAbsolute then [] else cwd) (target.pieces ++ rest)
termination_by (links, pieces.length)

inductive Real : List String → Prop where
  | root : Real []
  | name {names : List String} {name : String} : Real names → ¬IsSkipped name → name ≠ ".."
    → tree (names ++ [name]) = some .directory → Real (names ++ [name])

-- A path with all links resolved, to what is there or can be created.
def Resolved (names : List String) : Prop :=
  Real tree names ∨ ∃ dir name, names = dir ++ [name] ∧ Real tree dir ∧ ¬IsSkipped name ∧ name ≠ ".."
    ∧ ∀ target, tree names ≠ some (.link target)

variable {tree} {create creates : Bool} {links more : Nat} {cwd names pieces rest : List String}

theorem Real.dropLast (h : Real tree names) : Real tree names.dropLast := by
  cases h with
  | root => exact .root
  | name hdir _ _ _ => rwa [List.dropLast_concat]

theorem Real.walk (h : Real tree cwd) (pieces : List String)
    : tree.walk create links [] (cwd ++ pieces) = tree.walk create links cwd pieces := by
  induction h generalizing pieces with
  | root => rfl
  | @name dir piece hdir hskip hup hentry ih =>
    rw [List.append_assoc, ih, List.singleton_append, FileTree.walk, if_neg hskip, if_neg hup, hentry]

theorem resolved_walk (h : tree.walk create links cwd pieces = .ok names) (hcwd : Real tree cwd)
    : Resolved tree names := by
  fun_induction FileTree.walk tree create links cwd pieces with
  | case1 links cwd =>
    cases h
    exact .inl hcwd
  | case2 links cwd piece rest hskip ih => exact ih h hcwd
  | case3 links cwd rest hskip ih => exact ih h hcwd.dropLast
  | case4 links cwd piece rest hskip hup hentry _ =>
    cases h
    exact .inr ⟨cwd, piece, rfl, hcwd, hskip, hup, by simp [hentry]⟩
  | case6 links cwd piece rest hskip hup hentry ih => exact ih h (.name hcwd hskip hup hentry)
  | case7 links cwd piece hskip hup content hentry =>
    cases h
    exact .inr ⟨cwd, piece, rfl, hcwd, hskip, hup, by simp [hentry]⟩
  | case10 cwd piece rest hskip hup target hentry links ih =>
    refine ih h ?_
    split
    . exact .root
    . exact hcwd
  | case5 | case8 | case9 => cases h

theorem walk_append (h : tree.walk create links cwd (pieces ++ rest) = .ok names) (hrest : rest ≠ [])
    (hcwd : Real tree cwd) : ∃ dir more, tree.walk false links cwd pieces = .ok dir ∧ Real tree dir ∧ more ≤ links
      ∧ tree.walk create more dir rest = .ok names := by
  fun_induction FileTree.walk tree false links cwd pieces with
  | case1 links cwd => exact ⟨cwd, links, rfl, hcwd, le_rfl, h⟩
  | case2 links cwd piece pieces hskip ih =>
    rw [List.cons_append, walk, if_pos hskip] at h
    exact ih h hcwd
  | case3 links cwd pieces hskip ih =>
    rw [List.cons_append, walk, if_neg hskip, if_pos rfl] at h
    exact ih h hcwd.dropLast
  | case4 links cwd piece pieces hskip hup hentry hcreate => cases hcreate.1
  | case5 links cwd piece pieces hskip hup hentry _ =>
    rw [List.cons_append, walk, if_neg hskip, if_neg hup, hentry] at h
    simp [hrest] at h
  | case6 links cwd piece pieces hskip hup hentry ih =>
    rw [List.cons_append, walk, if_neg hskip, if_neg hup, hentry] at h
    exact ih h (.name hcwd hskip hup hentry)
  | case7 links cwd piece hskip hup content hentry =>
    rw [List.cons_append, walk, if_neg hskip, if_neg hup, hentry] at h
    simp [hrest] at h
  | case8 links cwd piece pieces hskip hup content hentry _ =>
    rw [List.cons_append, walk, if_neg hskip, if_neg hup, hentry] at h
    simp [hrest] at h
  | case9 cwd piece pieces hskip hup target hentry =>
    rw [List.cons_append, walk, if_neg hskip, if_neg hup, hentry] at h
    cases h
  | case10 cwd piece pieces hskip hup target hentry links ih =>
    rw [List.cons_append, walk, if_neg hskip, if_neg hup, hentry] at h
    obtain ⟨dir, more, hdir, hreal, hmore, hwalk⟩ := ih (by simpa using h) (by split; exacts [.root, hcwd])
    exact ⟨dir, more, hdir, hreal, Nat.le_succ_of_le hmore, hwalk⟩

theorem walk_skipped (h : ∀ piece ∈ pieces, IsSkipped piece)
    : tree.walk create links cwd (pieces ++ rest) = tree.walk create links cwd rest := by
  induction pieces with
  | nil => rfl
  | cons piece pieces ih =>
    rw [List.cons_append, walk, if_pos (h piece List.mem_cons_self)]
    exact ih fun p hp => h p (List.mem_cons_of_mem piece hp)

theorem walk_of_append (h : tree.walk create links cwd (pieces ++ rest) = .ok names)
    (hrest : ∀ piece ∈ rest, IsSkipped piece) (hmore : links ≤ more) (hcreates : create = true → creates = true)
    : tree.walk creates more cwd pieces = .ok names := by
  fun_induction FileTree.walk tree create links cwd pieces generalizing more with
  | case1 links cwd =>
    rw [List.nil_append, ← List.append_nil rest, walk_skipped hrest] at h
    rwa [walk] at h ⊢
  | case2 links cwd piece pieces hskip ih =>
    rw [List.cons_append, walk, if_pos hskip] at h
    rw [walk, if_pos hskip]
    exact ih h hmore
  | case3 links cwd pieces hskip ih =>
    rw [List.cons_append, walk, if_neg hskip, if_pos rfl] at h
    rw [walk, if_neg hskip, if_pos rfl]
    exact ih h hmore
  | case10 cwd piece pieces hskip hup target hentry links ih =>
    obtain ⟨more, rfl⟩ := Nat.exists_eq_add_of_lt hmore
    rw [List.cons_append, walk, if_neg hskip, if_neg hup, hentry] at h
    rw [walk, if_neg hskip, if_neg hup, hentry]
    exact ih (by simpa using h) (Nat.le_add_right links more)
  | case6 links cwd piece pieces hskip hup hentry ih =>
    rw [List.cons_append, walk, if_neg hskip, if_neg hup, hentry] at h
    rw [walk, if_neg hskip, if_neg hup, hentry]
    exact ih h hmore
  | case9 cwd piece pieces hskip hup target hentry =>
    rw [List.cons_append, walk, if_neg hskip, if_neg hup, hentry] at h
    cases h
  | case4 links cwd piece pieces hskip hup hentry hlast =>
    rw [List.cons_append, walk, if_neg hskip, if_neg hup, hentry] at h
    rw [walk, if_neg hskip, if_neg hup, hentry]
    simp only [hlast, true_and, List.nil_append] at h
    split at h
    . simpa [hcreates hlast.1, hlast.2] using h
    . cases h
  | case5 links cwd piece pieces hskip hup hentry hmissing =>
    rw [List.cons_append, walk, if_neg hskip, if_neg hup, hentry] at h
    have hmissing : ¬(create = true ∧ pieces ++ rest = []) := fun hlast => hmissing
      ⟨hlast.1, (List.append_eq_nil_iff.mp hlast.2).1⟩
    simp only [if_neg hmissing] at h
    cases h
  | case7 links cwd piece hskip hup content hentry =>
    rw [List.cons_append, walk, if_neg hskip, if_neg hup, hentry] at h
    rw [walk, if_neg hskip, if_neg hup, hentry]
    simp only [List.nil_append] at h
    split at h
    . simpa using h
    . cases h
  | case8 links cwd piece pieces hskip hup content hentry hpieces =>
    rw [List.cons_append, walk, if_neg hskip, if_neg hup, hentry] at h
    simp only [List.append_eq_nil_iff, hpieces, false_and, if_false] at h
    cases h

theorem Resolved.walk (h : Resolved tree names) (hwalk : tree.walk create links [] names = .ok rest) : rest = names := by
  rcases h with hreal | ⟨dir, name, rfl, hdir, hskip, hup, hentry⟩
  . have heq : tree.walk create links [] (names ++ []) = tree.walk create links names [] := hreal.walk []
    rw [List.append_nil, hwalk, FileTree.walk] at heq
    exact Except.ok.inj heq
  . rw [hdir.walk, FileTree.walk, if_neg hskip, if_neg hup] at hwalk
    split at hwalk
    . split at hwalk
      . exact (Except.ok.inj hwalk).symm
      . cases hwalk
    . rw [FileTree.walk] at hwalk
      exact (Except.ok.inj hwalk).symm
    . rw [if_pos rfl] at hwalk
      exact (Except.ok.inj hwalk).symm
    next target hlink => exact absurd hlink (hentry target)

end FileTree

open FileTree

-- A parent ends before the dots at its end, but one at its beginning stays.
def Path.fileName (path : Path) : Option (List String × String) :=
  let pieces := path.pieces.rdropWhile IsSkipped
  let parent := pieces.dropLast
  (pieces.getLast?.filter (· ≠ "..")).map fun name =>
    (parent.take 1 ++ (parent.drop 1).rdropWhile IsSkipped, name)

theorem Path.fileName_eq_some {path : Path} {parent : List String} {name : String}
    (h : path.fileName = some (parent, name))
    : name ≠ ".." ∧ ∃ between rest, path.pieces = parent ++ (between ++ ([name] ++ rest))
      ∧ (∀ piece ∈ between, IsSkipped piece) ∧ ∀ piece ∈ rest, IsSkipped piece := by
  obtain ⟨last, hlast, heq⟩ := Option.map_eq_some_iff.mp h
  cases heq
  obtain ⟨hlast, hup⟩ := Option.filter_eq_some_iff.mp hlast
  refine ⟨by simpa using hup, ((path.pieces.rdropWhile IsSkipped).dropLast.drop 1).rtakeWhile IsSkipped,
    path.pieces.rtakeWhile IsSkipped, ?_, fun p hp => by simpa using List.mem_rtakeWhile_imp hp,
    fun p hp => by simpa using List.mem_rtakeWhile_imp hp⟩
  rw [← List.append_assoc, List.append_assoc (List.take 1 _), List.rdropWhile_append_rtakeWhile,
    List.take_append_drop, ← List.append_assoc, List.dropLast_append_getLast? _ hlast,
    List.rdropWhile_append_rtakeWhile]

section

variable (tree : FileTree) (links : Nat) (process : List String)

def canonicalize (path : Path) : Except String (List String) :=
  tree.walk false links (if path.isAbsolute then [] else process) path.pieces

def resolveRoot (workdir : String) : Except ToolError (List String) :=
  let root := if workdir.isEmpty then "." else workdir
  match canonicalize tree links process (.new root) with
  | .error e => .error (.internal s!"could not resolve workspace root `{root}`: {e}")
  | .ok names => .ok names

-- What the pieces of a path are taken from: an absolute path from the root directory.
def candidate (root : List String) (path : Path) (pieces : List String) : List String :=
  if path.isAbsolute then pieces else root ++ pieces

def escapes (what workdir : String) : ToolError :=
  let root := if workdir.isEmpty then "." else workdir
  .permissionDenied s!"path {what} escapes the confined workspace root `{root}`"

def confinePath (workdir requested : String) : Except ToolError (List String) :=
  match resolveRoot tree links process workdir with
  | .error e => .error e
  | .ok root =>
    match tree.walk false links [] (candidate root (.new requested) (Path.new requested).pieces) with
    | .error e => .error (.internal s!"could not read {requested}: {e}")
    | .ok names => if root <+: names then .ok names else .error (escapes s!"`{requested}`" workdir)

def confinePathForWrite (workdir requested : String) : Except ToolError (List String) :=
  match resolveRoot tree links process workdir with
  | .error e => .error e
  | .ok root =>
    match (Path.new requested).fileName with
    | none => .error (.validation s!"path `{requested}` has no file name component")
    | some (parent, name) =>
      match tree.walk false links [] (candidate root (.new requested) parent) with
      | .error e => .error (.internal s!"could not resolve parent directory of `{requested}`: {e}")
      | .ok dir =>
        if ¬root <+: dir then
          .error (escapes s!"`{requested}`" workdir)
        else
          match tree (dir ++ [name]), tree.walk false links [] (dir ++ [name]) with
          | some (.link _), .ok resolved =>
            if root <+: resolved then .ok (dir ++ [name]) else .error (escapes s!"`{requested}` is a symlink that" workdir)
          | some (.link _), .error _ => .error (escapes s!"`{requested}` is a symlink that" workdir)
          | _, _ => .ok (dir ++ [name])

def readToString (names : List String) : Except String String :=
  match tree.walk false links [] names with
  | .error e => .error e
  | .ok target =>
    match tree target with
    | some (.file content) => .ok content
    | _ => .error "Is a directory (os error 21)"

-- Opens a file, creates it if it is missing, and writes to its beginning or its end.
def writeFile (names : List String) (content : String) (append : Bool) : Except String FileTree :=
  match tree.walk true links [] names with
  | .error e => .error e
  | .ok target =>
    match tree target with
    | none => .ok (Function.update tree target (some (.file content)))
    | some (.file old) => .ok (Function.update tree target (some (.file (if append then old ++ content else content))))
    | some _ => .error "Is a directory (os error 21)"

def fsRead (workdir : String) (path : Option String) : Except ToolError ToolResponse :=
  match path with
  | none => .error (.validation "missing required string field `path`")
  | some path =>
    match confinePath tree links process workdir path with
    | .error e => .error e
    | .ok confined =>
      match readToString tree links confined with
      | .error e => .error (.internal s!"could not read {path}: {e}")
      | .ok content => .ok ⟨true, .object [("path", .string path), ("content", .string content)]⟩

def fsWrite (workdir : String) (path content : Option String) (append : Bool)
    : Except ToolError ToolResponse × FileTree :=
  match path, content with
  | none, _ => (.error (.validation "missing required string field `path`"), tree)
  | some _, none => (.error (.validation "missing required string field `content`"), tree)
  | some path, some content =>
    match confinePathForWrite tree links process workdir path with
    | .error e => (.error e, tree)
    | .ok confined =>
      match writeFile tree links confined content append with
      | .error e =>
        let verb := if append then "open" else "write"
        (.error (.internal s!"could not {verb} {path}: {e}"), tree)
      | .ok written =>
        (.ok ⟨true, .object [("path", .string path), ("bytes_written", .int content.utf8ByteSize)]⟩, written)

/--
What a call reads or writes is a file at a path without links below the root of the workspace, and a path that
leads to another place is refused. Opening the path itself would tell where it leads to.
-/
structure Confined (workdir : String) : Prop where
  reads : ∀ path response, fsRead tree links process workdir (some path) = .ok response
    → ∃ root names content, resolveRoot tree links process workdir = .ok root ∧ root <+: names ∧ tree.Resolved names
      ∧ tree names = some (.file content)
      ∧ response = ⟨true, .object [("path", .string path), ("content", .string content)]⟩
  refusesRead : ∀ path root names, resolveRoot tree links process workdir = .ok root
    → tree.walk false links [] (candidate root (.new path) (Path.new path).pieces) = .ok names → ¬root <+: names
    → ∃ e, fsRead tree links process workdir (some path) = .error e
  writes : ∀ path content append, (fsWrite tree links process workdir path content append).2 = tree
    ∨ ∃ root names new, resolveRoot tree links process workdir = .ok root ∧ root <+: names ∧ tree.Resolved names
      ∧ (fsWrite tree links process workdir path content append).2 = Function.update tree names (some (.file new))
  refusesWrite : ∀ path content append root names, resolveRoot tree links process workdir = .ok root
    → tree.walk true links [] (candidate root (.new path) (Path.new path).pieces) = .ok names → ¬root <+: names
    → (∃ e, (fsWrite tree links process workdir (some path) content append).1 = .error e)
      ∧ (fsWrite tree links process workdir (some path) content append).2 = tree

end

section

variable {tree : FileTree} {links : Nat} {process root names : List String} {workdir requested : String}

theorem candidate_append (path : Path) (pieces rest : List String)
    : candidate root path (pieces ++ rest) = candidate root path pieces ++ rest := by
  unfold candidate
  split
  . rfl
  . rw [List.append_assoc]

theorem confinePath_eq_ok (hroot : resolveRoot tree links process workdir = .ok root)
    (h : confinePath tree links process workdir requested = .ok names)
    : root <+: names ∧ tree.Resolved names
      ∧ tree.walk false links [] (candidate root (.new requested) (Path.new requested).pieces) = .ok names := by
  rw [confinePath, hroot] at h
  dsimp only at h
  split at h
  . cases h
  next hwalk =>
    split at h
    next hinside =>
      cases h
      exact ⟨hinside, resolved_walk hwalk .root, hwalk⟩
    . cases h

theorem confinePathForWrite_eq_ok (hroot : resolveRoot tree links process workdir = .ok root)
    (h : confinePathForWrite tree links process workdir requested = .ok names) {target : List String}
    (hopen : tree.walk true links [] names = .ok target)
    : root <+: target ∧ tree.Resolved target
      ∧ ∀ p, tree.walk true links [] (candidate root (.new requested) (Path.new requested).pieces) = .ok p → p = target := by
  rw [confinePathForWrite, hroot] at h
  dsimp only at h
  split at h
  . cases h
  next parent name hname =>
    obtain ⟨hup, between, rest, hpieces, hbetween, hskips⟩ := Path.fileName_eq_some hname
    split at h
    . cases h
    next dir hdir =>
      split at h
      . cases h
      next hinside =>
        rw [not_not] at hinside
        obtain ⟨rfl, hlink⟩ : names = dir ++ [name] ∧ ∀ l, tree (dir ++ [name]) = some (.link l)
            → ∃ resolved, tree.walk false links [] (dir ++ [name]) = .ok resolved ∧ root <+: resolved := by
          split at h
          next hresolved =>
            split at h
            next hbelow =>
              cases h
              exact ⟨rfl, fun _ _ => ⟨_, hresolved, hbelow⟩⟩
            . cases h
          . cases h
          next hok herr =>
            cases h
            refine ⟨rfl, fun l hl => ?_⟩
            cases hwalk : tree.walk false links [] (dir ++ [name]) with
            | ok resolved => exact (hok l resolved hl hwalk).elim
            | error e => exact (herr l e hl hwalk).elim
        have hreal : Real tree dir := by
          obtain ⟨d, -, hd, hreal, -⟩ := walk_append hopen (List.cons_ne_nil name []) .root
          rwa [(resolved_walk hdir .root).walk hd] at hreal
        have hresolved := resolved_walk hopen .root
        rw [hreal.walk] at hopen
        refine ⟨?_, hresolved, ?_⟩
        . by_cases hl : ∃ l, tree (dir ++ [name]) = some (.link l)
          . obtain ⟨l, hl⟩ := hl
            obtain ⟨resolved, hwalk, hbelow⟩ := hlink l hl
            rw [hreal.walk] at hwalk
            have hwalk : tree.walk false links dir ([name] ++ []) = .ok resolved := hwalk
            have hsame : tree.walk true links dir [name] = .ok resolved :=
              walk_of_append hwalk (by simp) le_rfl (by simp)
            rw [hopen] at hsame
            cases hsame
            exact hbelow
          . have hwithin : root <+: dir ++ [name] := hinside.trans (List.prefix_append dir [name])
            rw [walk] at hopen
            split at hopen
            . rw [walk] at hopen
              cases hopen
              exact hinside
            . split at hopen
              . cases hopen
                exact hwithin
              . rw [walk] at hopen
                cases hopen
                exact hwithin
              . cases hopen
                exact hwithin
              next l hlink => exact absurd ⟨l, hlink⟩ hl
        . intro p hp
          rw [hpieces, candidate_append] at hp
          obtain ⟨d, more, hd, -, hmore, hwalk⟩ := walk_append hp (by simp) .root
          rw [hdir] at hd
          cases hd
          rw [walk_skipped hbetween] at hwalk
          have hsame := walk_of_append hwalk hskips hmore id
          rw [hopen] at hsame
          exact (Except.ok.inj hsame).symm

theorem writeFile_eq_ok {content : String} {append : Bool} {written : FileTree}
    (h : writeFile tree links names content append = .ok written)
    : ∃ target new, tree.walk true links [] names = .ok target
      ∧ written = Function.update tree target (some (.file new)) := by
  unfold writeFile at h
  split at h
  . cases h
  next target hwalk =>
    split at h
    . exact ⟨target, _, hwalk, (Except.ok.inj h).symm⟩
    . exact ⟨target, _, hwalk, (Except.ok.inj h).symm⟩
    . cases h

end

theorem confined (tree : FileTree) (links : Nat) (process : List String) (workdir : String)
    : Confined tree links process workdir where
  reads := by
    intro path response h
    unfold fsRead at h
    dsimp only at h
    split at h
    . cases h
    next names hconfined =>
      cases hroot : resolveRoot tree links process workdir with
      | error e => simp [confinePath, hroot] at hconfined
      | ok root =>
        obtain ⟨hinside, hresolved, -⟩ := confinePath_eq_ok hroot hconfined
        split at h
        . cases h
        next content hread =>
          unfold readToString at hread
          split at hread
          . cases hread
          next target hwalk =>
            rw [hresolved.walk hwalk] at hread
            split at hread
            next hfile =>
              cases hread
              exact ⟨root, names, content, rfl, hinside, hresolved, hfile, (Except.ok.inj h).symm⟩
            . cases hread
  refusesRead := by
    intro path root names hroot hwalk houtside
    unfold fsRead
    dsimp only
    split
    . exact ⟨_, rfl⟩
    next confined hconfined =>
      obtain ⟨hinside, -, heq⟩ := confinePath_eq_ok hroot hconfined
      rw [hwalk] at heq
      cases heq
      exact absurd hinside houtside
  writes := by
    intro path content append
    unfold fsWrite
    split
    . exact .inl rfl
    . exact .inl rfl
    next path content =>
      split
      . exact .inl rfl
      next confined hconfined =>
        split
        . exact .inl rfl
        next written hwritten =>
          obtain ⟨target, new, hopen, rfl⟩ := writeFile_eq_ok hwritten
          cases hroot : resolveRoot tree links process workdir with
          | error e => simp [confinePathForWrite, hroot] at hconfined
          | ok root =>
            obtain ⟨hinside, hresolved, -⟩ := confinePathForWrite_eq_ok hroot hconfined hopen
            exact .inr ⟨root, target, new, rfl, hinside, hresolved, rfl⟩
  refusesWrite := by
    intro path content append root names hroot hwalk houtside
    unfold fsWrite
    cases content with
    | none => exact ⟨⟨_, rfl⟩, rfl⟩
    | some content =>
      dsimp only
      split
      . exact ⟨⟨_, rfl⟩, rfl⟩
      next confined hconfined =>
        split
        . exact ⟨⟨_, rfl⟩, rfl⟩
        next written hwritten =>
          obtain ⟨target, new, hopen, -⟩ := writeFile_eq_ok hwritten
          obtain ⟨hinside, -, heq⟩ := confinePathForWrite_eq_ok hroot hconfined hopen
          exact absurd (heq names hwalk ▸ hinside) houtside

structure Ipv4Addr where
  a : UInt8
  b : UInt8
  c : UInt8
  d : UInt8
deriving DecidableEq

structure Ipv6Addr where
  front : Vector UInt16 6
  s6 : UInt16
  s7 : UInt16
deriving DecidableEq

inductive IpAddr where
  | v4 (v4 : Ipv4Addr)
  | v6 (v6 : Ipv6Addr)
deriving DecidableEq

def Ipv4Addr.ofSegments (hi lo : UInt16) : Ipv4Addr :=
  ⟨(hi >>> 8).toUInt8, hi.toUInt8, (lo >>> 8).toUInt8, lo.toUInt8⟩

namespace Ipv4Addr

variable (v4 : Ipv4Addr)

def isLoopback : Bool :=
  v4.a == 127

def isLinkLocal : Bool :=
  v4.a == 169 && v4.b == 254

def isPrivate : Bool :=
  v4.a == 10 || (v4.a == 172 && 16 ≤ v4.b && v4.b ≤ 31) || (v4.a == 192 && v4.b == 168)

def isUnspecified : Bool :=
  v4 == ⟨0, 0, 0, 0⟩

def isBroadcast : Bool :=
  v4 == ⟨255, 255, 255, 255⟩

def isBlocked : Bool :=
  let isCgnat := v4.a == 100 && (v4.b &&& 0xc0) == 0x40
  v4.isLoopback || v4.isLinkLocal || v4.isPrivate || v4.isUnspecified || v4.isBroadcast || isCgnat

end Ipv4Addr

namespace Ipv6Addr

variable (v6 : Ipv6Addr)

def octet0 : UInt8 :=
  (v6.front[0] >>> 8).toUInt8

def octet1 : UInt8 :=
  v6.front[0].toUInt8

def low : Ipv4Addr :=
  .ofSegments v6.s6 v6.s7

def isLoopback : Bool :=
  v6 == ⟨#v[0, 0, 0, 0, 0, 0], 0, 1⟩

def isUnspecified : Bool :=
  v6 == ⟨#v[0, 0, 0, 0, 0, 0], 0, 0⟩

def toIpv4Mapped : Option Ipv4Addr :=
  if v6.front = #v[0, 0, 0, 0, 0, 0xffff] then some v6.low else none

end Ipv6Addr

def isBlockedIp : IpAddr → Bool
  | .v4 v4 => v4.isBlocked
  | .v6 v6 =>
    match v6.toIpv4Mapped with
    | some mapped => mapped.isBlocked
    | none =>
      if v6.front[0] = 0x2002 then
        (Ipv4Addr.ofSegments v6.front[1] v6.front[2]).isBlocked
      else if v6.front = #v[0x64, 0xff9b, 0, 0, 0, 0] then
        v6.low.isBlocked
      else if v6.front = #v[0, 0, 0, 0, 0, 0] && !v6.isUnspecified && !v6.isLoopback then
        v6.low.isBlocked
      else
        let isUniqueLocal := (v6.octet0 &&& 0xfe) == 0xfc
        let isLinkLocal := v6.octet0 == 0xfe && (v6.octet1 &&& 0xc0) == 0x80
        v6.isLoopback || v6.isUnspecified || isUniqueLocal || isLinkLocal

-- Loopback, link-local, private, unspecified, broadcast or CGNAT.
def Ipv4Addr.Internal (v4 : Ipv4Addr) : Prop :=
  v4.a = 127 ∨ (v4.a = 169 ∧ v4.b = 254)
    ∨ v4.a = 10 ∨ (v4.a = 172 ∧ v4.b.toNat / 16 = 1) ∨ (v4.a = 192 ∧ v4.b = 168)
    ∨ v4 = ⟨0, 0, 0, 0⟩ ∨ v4 = ⟨255, 255, 255, 255⟩ ∨ (v4.a = 100 ∧ v4.b.toNat / 64 = 1)

-- The mapped, compatible and NAT64 forms have the address at their end, that of 6to4 has it after its prefix.
def Ipv6Addr.Embeds (v6 : Ipv6Addr) (v4 : Ipv4Addr) : Prop :=
  v6.low = v4 ∧ v6.front ∈ [#v[0, 0, 0, 0, 0, 0xffff], #v[0, 0, 0, 0, 0, 0], #v[0x64, 0xff9b, 0, 0, 0, 0]]
    ∨ v6.front[0] = 0x2002 ∧ Ipv4Addr.ofSegments v6.front[1] v6.front[2] = v4

-- An address of version 6 is also internal if it is unique-local, or through one of version 4.
def Internal : IpAddr → Prop
  | .v4 v4 => v4.Internal
  | .v6 v6 => v6 = ⟨#v[0, 0, 0, 0, 0, 0], 0, 1⟩ ∨ v6 = ⟨#v[0, 0, 0, 0, 0, 0], 0, 0⟩ ∨ v6.octet0.toNat / 2 = 0xfc / 2
    ∨ (v6.octet0 = 0xfe ∧ v6.octet1.toNat / 64 = 2) ∨ ∃ v4, v6.Embeds v4 ∧ v4.Internal

theorem masks : ∀ b : UInt8, ((b &&& 0xc0) = 0x40 ↔ b.toNat / 64 = 1) ∧ ((b &&& 0xc0) = 0x80 ↔ b.toNat / 64 = 2)
    ∧ ((b &&& 0xfe) = 0xfc ↔ b.toNat / 2 = 0xfc / 2) ∧ (16 ≤ b ∧ b ≤ 31 ↔ b.toNat / 16 = 1) := by
  rintro ⟨b⟩
  revert b
  decide

theorem isBlocked_iff (v4 : Ipv4Addr) : v4.isBlocked = true ↔ v4.Internal := by
  simp [Ipv4Addr.isBlocked, Ipv4Addr.isLoopback, Ipv4Addr.isLinkLocal, Ipv4Addr.isPrivate, Ipv4Addr.isUnspecified,
    Ipv4Addr.isBroadcast, Ipv4Addr.Internal, (masks v4.b).1, ← (masks v4.b).2.2.2, or_assoc, and_assoc]

theorem Ipv6Addr.eq_mk_iff {v6 : Ipv6Addr} {front : Vector UInt16 6} {s6 s7 : UInt16}
    : v6 = ⟨front, s6, s7⟩ ↔ v6.front = front ∧ v6.s6 = s6 ∧ v6.s7 = s7 := by
  cases v6
  simp

theorem isBlockedIp_iff (ip : IpAddr) : isBlockedIp ip = true ↔ Internal ip := by
  cases ip with
  | v4 v4 => exact isBlocked_iff v4
  | v6 v6 =>
    simp only [isBlockedIp, Ipv6Addr.toIpv4Mapped, Internal, Ipv6Addr.isLoopback, Ipv6Addr.isUnspecified,
      Ipv6Addr.Embeds, Ipv6Addr.eq_mk_iff, Ipv6Addr.octet0, Ipv6Addr.octet1]
    by_cases hmapped : v6.front = #v[0, 0, 0, 0, 0, 0xffff]
    . simp [hmapped, isBlocked_iff]
    . simp only [if_neg hmapped]
      by_cases hsix : v6.front[0] = 0x2002
      . have hnat : v6.front ≠ #v[0x64, 0xff9b, 0, 0, 0, 0] := fun h => by simp [h] at hsix
        have hzero : v6.front ≠ #v[0, 0, 0, 0, 0, 0] := fun h => by simp [h] at hsix
        simp [hmapped, hsix, hnat, hzero, isBlocked_iff]
      . by_cases hnat : v6.front = #v[0x64, 0xff9b, 0, 0, 0, 0]
        . simp [hnat, isBlocked_iff]
        . by_cases hzero : v6.front = #v[0, 0, 0, 0, 0, 0]
          . by_cases hself : v6 = ⟨#v[0, 0, 0, 0, 0, 0], 0, 1⟩ ∨ v6 = ⟨#v[0, 0, 0, 0, 0, 0], 0, 0⟩
            . rcases hself with rfl | rfl <;> simp
            . rw [not_or] at hself
              have hlow := hself
              simp only [Ipv6Addr.eq_mk_iff, hzero, true_and] at hlow
              simp [hzero, hself, hlow, isBlocked_iff]
          . simp [hmapped, hsix, hnat, hzero, Ipv6Addr.eq_mk_iff, masks]

structure Response where
  status : Nat
  location : Option (Option String)

structure Url where
  host : Option String
  port : Option Nat

/--
The HTTP library, and what is answered from outside to the `n`-th lookup and request. The client connects the
name of a host to the address it is given, and the lookup of an address gives that address.
-/
structure Web where
  parse : String → Except String Url
  join : String → String → Except String String
  display : IpAddr → String
  lookupHost : Nat → String → Nat → Except String (List IpAddr)
  build : Nat → String → IpAddr → Except String Unit
  send : Nat → String → IpAddr → Except String Response

structure Connection where
  lookup : Nat
  url : String
  host : String
  port : Nat
  address : IpAddr

namespace HttpGet

variable (net : Web) (egressAllowlist : Option (List String)) (maxRedirects : Nat) (url : String)

def resolveAndGuard (n : Nat) (host : String) (port : Nat) : Except ToolError IpAddr :=
  if egressAllowlist.any fun allowlist => !allowlist.contains host then
    .error (.permissionDenied s!"host `{host}` is not on the egress allow-list")
  else
    match net.lookupHost n host port with
    | .error e => .error (.network s!"DNS resolution for `{host}` failed: {e}")
    | .ok [] => .error (.network s!"DNS resolution for `{host}` returned no addresses")
    | .ok (first :: candidates) =>
      match (first :: candidates).find? isBlockedIp with
      | some ip => .error (.permissionDenied
          s!"host `{host}` resolves to a blocked internal/metadata address ({net.display ip})")
      | none => .ok first

def IsHttp (target : String) : Prop :=
  "http://".toList <+: target.toList ∨ "https://".toList <+: target.toList

instance : DecidablePred IsHttp := fun _ =>
  inferInstanceAs (Decidable (_ ∨ _))

def parseHttpHostPort (url : String) : Except ToolError (String × Nat) :=
  if ¬IsHttp url then
    .error (.validation "url must start with http:// or https://")
  else
    match net.parse url with
    | .error e => .error (.validation s!"invalid URL `{url}`: {e}")
    | .ok parsed =>
      match parsed.host, parsed.port with
      | none, _ => .error (.validation s!"URL `{url}` has no host")
      | some _, none => .error (.validation s!"URL `{url}` has no resolvable port")
      | some host, some port => .ok (host, port)

def redirect (current : String) (resp : Response) : Except ToolError (Option String) :=
  match resp.location.filter fun _ => 300 ≤ resp.status ∧ resp.status < 400 with
  | none => .ok none
  | some none => .error (.network "redirect `Location` header is not valid text")
  | some (some location) =>
    match net.join current location with
    | .error e => .error (.network s!"invalid redirect target `{location}`: {e}")
    | .ok next => .ok (some next)

-- What the `n`-th request and those after it return, with the connections that are opened.
def follow (n : Nat) : Nat → String → Except ToolError Response × List Connection
  | 0, _ => (.error (.network s!"too many redirects (>{maxRedirects}) fetching {url}"), [])
  | hops + 1, current =>
    match parseHttpHostPort net current with
    | .error e => (.error e, [])
    | .ok (host, port) =>
      match resolveAndGuard net egressAllowlist n host port with
      | .error e => (.error e, [])
      | .ok pinned =>
        match net.build n host pinned with
        | .error e => (.error (.internal s!"could not build HTTP client: {e}"), [])
        | .ok () =>
          let connection : Connection := ⟨n, current, host, port, pinned⟩
          match net.send n current pinned with
          | .error e => (.error (.network s!"GET {current} failed: {e}"), [connection])
          | .ok resp =>
            match redirect net current resp with
            | .error e => (.error e, [connection])
            | .ok none => (.ok resp, [connection])
            | .ok (some next) =>
              let (result, connections) := follow (n + 1) hops next
              (result, connection :: connections)

def getFollowingGuardedRedirects : Except ToolError Response × List Connection :=
  follow net egressAllowlist maxRedirects url 0 (maxRedirects + 1) url

structure Vetted (c : Connection) : Prop where
  isHttp : IsHttp c.url
  named : net.parse c.url = .ok ⟨some c.host, some c.port⟩
  allowed : ∀ allowlist, egressAllowlist = some allowlist → c.host ∈ allowlist
  answered : ∃ answers, net.lookupHost c.lookup c.host c.port = .ok answers ∧ c.address ∈ answers
    ∧ ∀ ip ∈ answers, ¬Internal ip

variable {net egressAllowlist maxRedirects url}

theorem resolveAndGuard_eq_ok {n port : Nat} {host : String} {pinned : IpAddr}
    (h : resolveAndGuard net egressAllowlist n host port = .ok pinned)
    : (∀ allowlist, egressAllowlist = some allowlist → host ∈ allowlist)
      ∧ ∃ answers, net.lookupHost n host port = .ok answers ∧ pinned ∈ answers ∧ ∀ ip ∈ answers, ¬Internal ip := by
  unfold resolveAndGuard at h
  split at h
  . cases h
  next hallowed =>
    refine ⟨fun allowlist hlist => by simpa [hlist] using hallowed, ?_⟩
    split at h
    . cases h
    . cases h
    next first candidates hlookup =>
      split at h
      . cases h
      next hfind =>
        cases h
        refine ⟨_, hlookup, List.mem_cons_self, fun ip hip hinternal => ?_⟩
        exact List.find?_eq_none.mp hfind ip hip ((isBlockedIp_iff ip).mpr hinternal)

theorem parseHttpHostPort_eq_ok {current host : String} {port : Nat}
    (h : parseHttpHostPort net current = .ok (host, port))
    : IsHttp current ∧ net.parse current = .ok ⟨some host, some port⟩ := by
  unfold parseHttpHostPort at h
  split at h
  . cases h
  next hhttp =>
    split at h
    . cases h
    next parsed hparse =>
      split at h
      . cases h
      . cases h
      next hhost hport =>
        cases h
        exact ⟨not_not.mp hhttp, by rw [hparse, ← hhost, ← hport]⟩

theorem follow_vetted (n hops : Nat) (current : String)
    : (∀ c ∈ (follow net egressAllowlist maxRedirects url n hops current).2, Vetted net egressAllowlist c)
      ∧ ∃ requests ≤ hops, (follow net egressAllowlist maxRedirects url n hops current).2.map (·.lookup)
        = List.range' n requests := by
  induction hops generalizing n current with
  | zero => exact ⟨fun c hc => absurd hc List.not_mem_nil, 0, le_rfl, rfl⟩
  | succ hops ih =>
    have hnone : (∀ c ∈ ([] : List Connection), Vetted net egressAllowlist c)
        ∧ ∃ requests ≤ hops + 1, ([] : List Connection).map (·.lookup) = List.range' n requests :=
      ⟨fun c hc => absurd hc List.not_mem_nil, 0, Nat.zero_le _, rfl⟩
    unfold follow
    split
    . exact hnone
    next host port hparse =>
      split
      . exact hnone
      next pinned hguard =>
        split
        . exact hnone
        . obtain ⟨hhttp, hurl⟩ := parseHttpHostPort_eq_ok hparse
          obtain ⟨hallowed, hanswers⟩ := resolveAndGuard_eq_ok hguard
          have hvetted : Vetted net egressAllowlist ⟨n, current, host, port, pinned⟩ :=
            ⟨hhttp, hurl, hallowed, hanswers⟩
          have hone : (∀ c ∈ [(⟨n, current, host, port, pinned⟩ : Connection)], Vetted net egressAllowlist c)
              ∧ ∃ requests ≤ hops + 1, [n] = List.range' n requests :=
            ⟨fun c hc => List.mem_singleton.mp hc ▸ hvetted, 1, Nat.succ_le_succ (Nat.zero_le _), rfl⟩
          dsimp only
          split
          . exact hone
          . split
            . exact hone
            . exact hone
            next target _ =>
              obtain ⟨hrest, requests, hle, hlookups⟩ := ih (n + 1) target
              refine ⟨List.forall_mem_cons.mpr ⟨hvetted, hrest⟩, requests + 1, Nat.succ_le_succ hle, ?_⟩
              rw [List.map_cons, hlookups, List.range'_succ]

/--
Every connection is vetted by a lookup of its own, there are at most as many as redirects and one more, and a
target that is not HTTP is refused without a connection.
-/
theorem connections_vetted (net : Web) (egressAllowlist : Option (List String)) (maxRedirects : Nat) (url : String)
    : (∀ c ∈ (getFollowingGuardedRedirects net egressAllowlist maxRedirects url).2, Vetted net egressAllowlist c)
      ∧ (∃ requests ≤ maxRedirects + 1, (getFollowingGuardedRedirects net egressAllowlist maxRedirects url).2.map
          (·.lookup) = List.range requests)
      ∧ ∀ n hops target, ¬IsHttp target → follow net egressAllowlist maxRedirects url n (hops + 1) target
          = (.error (.validation "url must start with http:// or https://"), []) := by
  obtain ⟨hvetted, requests, hle, hlookups⟩ := @follow_vetted net egressAllowlist maxRedirects url 0
    (maxRedirects + 1) url
  refine ⟨hvetted, ⟨requests, hle, by rw [List.range_eq_range']; exact hlookups⟩, ?_⟩
  intro n hops target htarget
  rw [follow, parseHttpHostPort, if_pos htarget]

end Wovyr.Tools.HttpGet
