import OsLabs.Posix.MaximalRuns
import OsLabs.Posix.StringCopy

/-!
# Directory trees

Finite trees of files without symbolic links, and the resolution of paths in
them.  A directory has its entries in the order in which `readdir` returns
them; `.` and `..` may stand anywhere among them or be missing.

`filePaths` lists the regular files below a directory, depth first: by
`mem_filePaths` it has the path of each of them and nothing else, and by
`filePaths_nodup` it has none twice.  `locate_child`: the path of a directory,
a slash and the name of an entry resolve to that entry.
-/

namespace OsLabs.Posix.FileTree

/-! ## Names and paths -/

theorem slash_nulFree : (0 : UInt8) ∉ [47] := by
  decide

theorem dot_nulFree : (0 : UInt8) ∉ [46] := by
  decide

theorem dotDot_nulFree : (0 : UInt8) ∉ [46, 46] := by
  decide

/-- `/` -/
def slash : CString := ⟨[47], slash_nulFree⟩

/-- `.` -/
def dot : CString := ⟨[46], dot_nulFree⟩

/-- `..` -/
def dotDot : CString := ⟨[46, 46], dotDot_nulFree⟩

/-- The name of an entry other than `.` and `..`, no longer than `NAME_MAX`. -/
structure FileName where
  text : CString
  nonempty : text.bytes ≠ []
  noSlash : (47 : UInt8) ∉ text.bytes
  notDot : text ≠ dot
  notDotDot : text ≠ dotDot
  short : text.bytes.length ≤ 255
  deriving DecidableEq

/-- The path of an entry of the directory with path `dir`. -/
def entryPath (dir name : CString) : CString := (dir.append slash).append name

theorem entryPath_bytes (dir name : CString) :
    (entryPath dir name).bytes = dir.bytes ++ 47 :: name.bytes :=
  List.append_assoc _ _ _

/-- What separates the components of a path. -/
def isSlash (c : UInt8) : Bool := c == 47

/-! ## Trees -/

mutual

/-- A file. -/
inductive Node where
  | regular
  | special
  | directory (entries : Entries)

/-- The entries of a directory. -/
inductive Entries where
  | nil
  | dot (rest : Entries)
  | dotDot (rest : Entries)
  | child (name : FileName) (node : Node) (rest : Entries)

end

/-- The entry with a name, `.` and `..` apart. -/
def Entries.find (name : List UInt8) : Entries → Option Node
  | .nil => none
  | .dot rest => rest.find name
  | .dotDot rest => rest.find name
  | .child name' node rest =>
    if name'.text.bytes = name then some node else rest.find name

/-- What `readdir` returns. -/
def Entries.names : Entries → List CString
  | .nil => []
  | .dot rest => FileTree.dot :: rest.names
  | .dotDot rest => FileTree.dotDot :: rest.names
  | .child name _ rest => name.text :: rest.names

mutual

/-- No directory has two entries of one name. -/
def Node.Distinct : Node → Prop
  | .regular => True
  | .special => True
  | .directory entries => entries.Distinct

def Entries.Distinct : Entries → Prop
  | .nil => True
  | .dot rest => rest.Distinct
  | .dotDot rest => rest.Distinct
  | .child name node rest =>
    rest.find name.text.bytes = none ∧ node.Distinct ∧ rest.Distinct

end

mutual

/-- How many directories lie inside each other. -/
def Node.depth : Node → Nat
  | .regular => 0
  | .special => 0
  | .directory entries => entries.depth + 1

def Entries.depth : Entries → Nat
  | .nil => 0
  | .dot rest => rest.depth
  | .dotDot rest => rest.depth
  | .child _ node rest => max node.depth rest.depth

end

/-! ## The regular files of a tree -/

mutual

/-- The paths of the regular files at and below a node that has a path. -/
def Node.filePaths (path : CString) : Node → List CString
  | .regular => [path]
  | .special => []
  | .directory entries => entries.filePaths path

/-- The paths of the regular files below the directory with path `dir`, depth
first and otherwise in the order of the entries. -/
def Entries.filePaths (dir : CString) : Entries → List CString
  | .nil => []
  | .dot rest => rest.filePaths dir
  | .dotDot rest => rest.filePaths dir
  | .child name node rest =>
    node.filePaths (entryPath dir name.text) ++ rest.filePaths dir

end

/-- `name` is a name of an entry for `node`. -/
inductive Entries.Has : Entries → FileName → Node → Prop where
  | here {name : FileName} {node : Node} {rest : Entries} :
      Has (.child name node rest) name node
  | dot {name : FileName} {node : Node} {rest : Entries} :
      Has rest name node → Has (.dot rest) name node
  | dotDot {name : FileName} {node : Node} {rest : Entries} :
      Has rest name node → Has (.dotDot rest) name node
  | child {name name' : FileName} {node node' : Node} {rest : Entries} :
      Has rest name node → Has (.child name' node' rest) name node

/-- A node lies below another one, by way of these names. -/
inductive Node.Leads : Node → List FileName → Node → Prop where
  | here {node : Node} : Leads node [] node
  | into {entries : Entries} {name : FileName} {names : List FileName}
      {child node : Node} :
      entries.Has name child → Leads child names node →
      Leads (.directory entries) (name :: names) node

/-- The path by way of these names. -/
def pathBelow (dir : CString) (names : List FileName) : CString :=
  names.foldl (fun path name => entryPath path name.text) dir

mutual

theorem Node.mem_filePaths : (node : Node) → (path dir : CString) →
    (path ∈ node.filePaths dir ↔
      ∃ names, node.Leads names .regular ∧ path = pathBelow dir names)
  | .regular, path, dir => by
      constructor
      · intro h
        exact ⟨[], .here, List.mem_singleton.mp h⟩
      · rintro ⟨names, hleads, hpath⟩
        cases hleads
        exact List.mem_singleton.mpr hpath
  | .special, path, dir => by
      constructor
      · intro h
        cases h
      · rintro ⟨names, hleads, -⟩
        cases hleads
  | .directory entries, path, dir => by
      rw [Node.filePaths, Entries.mem_filePaths entries path dir]
      constructor
      · rintro ⟨name, child, names, hhas, hleads, hpath⟩
        exact ⟨name :: names, .into hhas hleads, hpath⟩
      · rintro ⟨names, hleads, hpath⟩
        cases hleads with
        | into hhas hleads => exact ⟨_, _, _, hhas, hleads, hpath⟩

theorem Entries.mem_filePaths : (entries : Entries) → (path dir : CString) →
    (path ∈ entries.filePaths dir ↔
      ∃ name child names, entries.Has name child ∧
        child.Leads names .regular ∧
        path = pathBelow (entryPath dir name.text) names)
  | .nil, path, dir => by
      constructor
      · intro h
        cases h
      · rintro ⟨_, _, _, hhas, -⟩
        cases hhas
  | .dot rest, path, dir => by
      rw [Entries.filePaths, Entries.mem_filePaths rest path dir]
      constructor
      · rintro ⟨name, child, names, hhas, hrest⟩
        exact ⟨name, child, names, .dot hhas, hrest⟩
      · rintro ⟨name, child, names, hhas, hrest⟩
        cases hhas with
        | dot hhas => exact ⟨name, child, names, hhas, hrest⟩
  | .dotDot rest, path, dir => by
      rw [Entries.filePaths, Entries.mem_filePaths rest path dir]
      constructor
      · rintro ⟨name, child, names, hhas, hrest⟩
        exact ⟨name, child, names, .dotDot hhas, hrest⟩
      · rintro ⟨name, child, names, hhas, hrest⟩
        cases hhas with
        | dotDot hhas => exact ⟨name, child, names, hhas, hrest⟩
  | .child name node rest, path, dir => by
      rw [Entries.filePaths, List.mem_append, Node.mem_filePaths node path,
        Entries.mem_filePaths rest path dir]
      constructor
      · rintro (⟨names, hleads, hpath⟩ | ⟨name', child, names, hhas, hrest⟩)
        · exact ⟨name, node, names, .here, hleads, hpath⟩
        · exact ⟨name', child, names, .child hhas, hrest⟩
      · rintro ⟨name', child, names, hhas, hleads, hpath⟩
        cases hhas with
        | here => exact Or.inl ⟨names, hleads, hpath⟩
        | child hhas => exact Or.inr ⟨name', child, names, hhas, hleads, hpath⟩

end

section Names

variable {name : FileName} {node : Node} {entries : Entries}

theorem Entries.Has.find_ne_none (h : entries.Has name node) :
    entries.find name.text.bytes ≠ none := by
  induction h with
  | here =>
      rw [Entries.find, if_pos rfl]
      exact Option.some_ne_none _
  | dot _ ih => exact ih
  | dotDot _ ih => exact ih
  | child _ ih =>
      rw [Entries.find]
      split
      · exact Option.some_ne_none _
      · exact ih

theorem Entries.Has.find_eq (h : entries.Has name node)
    (hdistinct : entries.Distinct) :
    entries.find name.text.bytes = some node := by
  induction h with
  | here => exact if_pos rfl
  | dot _ ih => exact ih hdistinct
  | dotDot _ ih => exact ih hdistinct
  | @child name name' node node' rest hrest ih =>
      have hne : name'.text.bytes ≠ name.text.bytes := by
        intro heq
        exact hrest.find_ne_none (heq ▸ hdistinct.1)
      rw [Entries.find, if_neg hne]
      exact ih hdistinct.2.2

theorem Entries.Has.distinct (h : entries.Has name node)
    (hdistinct : entries.Distinct) : node.Distinct := by
  induction h with
  | here => exact hdistinct.2.1
  | dot _ ih => exact ih hdistinct
  | dotDot _ ih => exact ih hdistinct
  | child _ ih => exact ih hdistinct.2.2

theorem Entries.Has.depth_le (h : entries.Has name node) :
    node.depth ≤ entries.depth := by
  induction h with
  | here => exact Nat.le_max_left _ _
  | dot _ ih => exact ih
  | dotDot _ ih => exact ih
  | child _ ih => exact Nat.le_trans ih (Nat.le_max_right _ _)

theorem FileName.delimiterFree (name : FileName) :
    ∀ c ∈ name.text.bytes, isSlash c = false := by
  intro c hc
  apply beq_false_of_ne
  intro heq
  exact name.noSlash (heq ▸ hc)

/-- The last component of the path of an entry is its name. -/
theorem runs_entryPath (dir name : CString) (hne : name.bytes ≠ [])
    (hfree : ∀ c ∈ name.bytes, isSlash c = false) :
    runs isSlash (entryPath dir name).bytes =
      runs isSlash dir.bytes ++ [name.bytes] := by
  rw [entryPath_bytes, runs_append_delimiter (by rfl), runs_token hne hfree]

theorem runs_pathBelow (dir : CString) (names : List FileName) :
    runs isSlash (pathBelow dir names).bytes =
      runs isSlash dir.bytes ++ names.map (fun name => name.text.bytes) := by
  induction names generalizing dir with
  | nil => exact (List.append_nil _).symm
  | cons name names ih =>
      have hrest := ih (entryPath dir name.text)
      rw [runs_entryPath dir name.text name.nonempty name.delimiterFree,
        List.append_assoc] at hrest
      exact hrest

end Names

mutual

/-- With distinct names no path is listed twice. -/
theorem Node.filePaths_nodup : (node : Node) → (dir : CString) →
    node.Distinct → (node.filePaths dir).Nodup
  | .regular, _, _ => List.nodup_cons.mpr ⟨List.not_mem_nil, List.nodup_nil⟩
  | .special, _, _ => List.nodup_nil
  | .directory entries, dir, h => Entries.filePaths_nodup entries dir h

theorem Entries.filePaths_nodup : (entries : Entries) → (dir : CString) →
    entries.Distinct → (entries.filePaths dir).Nodup
  | .nil, _, _ => List.nodup_nil
  | .dot rest, dir, h => Entries.filePaths_nodup rest dir h
  | .dotDot rest, dir, h => Entries.filePaths_nodup rest dir h
  | .child name node rest, dir, ⟨hnew, hnode, hrest⟩ => by
      rw [Entries.filePaths, List.nodup_append]
      refine ⟨Node.filePaths_nodup node _ hnode,
        Entries.filePaths_nodup rest dir hrest, ?_⟩
      rintro path hpath path' hpath' rfl
      obtain ⟨names, -, heq⟩ := (Node.mem_filePaths node path _).mp hpath
      obtain ⟨name', child, names', hhas, -, heq'⟩ :=
        (Entries.mem_filePaths rest path dir).mp hpath'
      -- Both paths have the same component behind those of `dir`.
      have hruns := runs_pathBelow dir (name :: names)
      have hruns' := runs_pathBelow dir (name' :: names')
      have heqs : pathBelow dir (name :: names) =
          pathBelow dir (name' :: names') := heq.symm.trans heq'
      rw [heqs, hruns'] at hruns
      have hname : name'.text.bytes = name.text.bytes :=
        (List.cons.inj (List.append_cancel_left hruns)).1
      exact hhas.find_ne_none (hname ▸ hnew)

end

/-! ## Resolution of paths -/

/-- A file, with the directories that it lies in, innermost first. -/
structure Location where
  node : Node
  above : List Entries

/-- One component of a path. -/
def Location.step (l : Location) (name : List UInt8) : Option Location :=
  match l.node with
  | .directory entries =>
    if name = dot.bytes then some l
    else if name = dotDot.bytes then
      match l.above with
      | [] => some l
      | parent :: above => some ⟨.directory parent, above⟩
    else (entries.find name).map fun node => ⟨node, entries :: l.above⟩
  | _ => none

/-- A file system, with the working directory of the process. -/
structure FileSystem where
  root : Entries
  workingDir : List FileName

/-- The directory that the resolution of a path starts in, from the root. -/
def FileSystem.start (fs : FileSystem) (path : CString) : List (List UInt8) :=
  if path.bytes.head? = some 47 then []
  else fs.workingDir.map fun name => name.text.bytes

/-- The file that a path refers to. -/
def FileSystem.locate (fs : FileSystem) (path : CString) : Option Location :=
  if path.bytes = [] then none
  else (fs.start path ++ runs isSlash path.bytes).foldlM Location.step
    ⟨.directory fs.root, []⟩

section Locate

variable {fs : FileSystem} {dir : CString} {entries : Entries}
  {above : List Entries} {name : FileName} {node : Node}

theorem ne_nil_of_locate {l : Location} (h : fs.locate dir = some l) :
    dir.bytes ≠ [] := by
  intro hnil
  rw [FileSystem.locate, if_pos hnil] at h
  cases h

/-- The path of a directory, a slash and a name. -/
theorem locate_entryPath {l : Location} (h : fs.locate dir = some l)
    (name : CString) (hname : name.bytes ≠ [])
    (hfree : ∀ c ∈ name.bytes, isSlash c = false) :
    fs.locate (entryPath dir name) = l.step name.bytes := by
  have hne := ne_nil_of_locate h
  have hne' : (entryPath dir name).bytes ≠ [] := by
    rw [entryPath_bytes]
    exact List.append_ne_nil_of_left_ne_nil hne _
  have hstart : fs.start (entryPath dir name) = fs.start dir := by
    rw [FileSystem.start, entryPath_bytes, List.head?_append,
      List.head?_eq_some_head hne, Option.some_or, FileSystem.start,
      List.head?_eq_some_head hne]
  rw [FileSystem.locate, if_neg hne] at h
  rw [FileSystem.locate, if_neg hne', hstart,
    runs_entryPath dir name hname hfree, ← List.append_assoc,
    List.foldlM_append, h]
  show l.step name.bytes >>= pure = _
  rw [bind_pure]

theorem locate_child (h : fs.locate dir = some ⟨.directory entries, above⟩)
    (hfind : entries.find name.text.bytes = some node) :
    fs.locate (entryPath dir name.text) = some ⟨node, entries :: above⟩ := by
  rw [locate_entryPath h name.text name.nonempty name.delimiterFree]
  have hdot : name.text.bytes ≠ dot.bytes :=
    fun heq => name.notDot (CString.ext_bytes heq)
  have hdotDot : name.text.bytes ≠ dotDot.bytes :=
    fun heq => name.notDotDot (CString.ext_bytes heq)
  show (if name.text.bytes = dot.bytes then _ else if _ then _ else _) = _
  rw [if_neg hdot, if_neg hdotDot, hfind]
  rfl

theorem dot_delimiterFree : ∀ c ∈ dot.bytes, isSlash c = false :=
  List.forall_mem_cons.mpr ⟨rfl, List.forall_mem_nil _⟩

theorem dotDot_delimiterFree : ∀ c ∈ dotDot.bytes, isSlash c = false :=
  List.forall_mem_cons.mpr ⟨rfl, dot_delimiterFree⟩

theorem locate_dot (h : fs.locate dir = some ⟨.directory entries, above⟩) :
    fs.locate (entryPath dir dot) = some ⟨.directory entries, above⟩ :=
  locate_entryPath h dot (List.cons_ne_nil _ _) dot_delimiterFree

/-- `..` is a directory, whichever. -/
theorem locate_dotDot (h : fs.locate dir = some ⟨.directory entries, above⟩) :
    ∃ parent above', fs.locate (entryPath dir dotDot) =
      some ⟨.directory parent, above'⟩ := by
  have hlocate := locate_entryPath h dotDot (List.cons_ne_nil _ _)
    dotDot_delimiterFree
  cases above with
  | nil => exact ⟨_, _, hlocate⟩
  | cons parent above => exact ⟨_, _, hlocate⟩

end Locate

/-! ### The working directory -/

theorem empty_nulFree : (0 : UInt8) ∉ [] :=
  List.not_mem_nil

/-- The empty string. -/
def emptyPath : CString := ⟨[], empty_nulFree⟩

/-- The path of the working directory, as `getcwd` returns it. -/
def FileSystem.workingPath (fs : FileSystem) : CString :=
  match fs.workingDir with
  | [] => slash
  | _ :: _ => pathBelow emptyPath fs.workingDir

/-- The working directory. -/
def FileSystem.workingLocation (fs : FileSystem) : Option Location :=
  (fs.workingDir.map fun name => name.text.bytes).foldlM Location.step
    ⟨.directory fs.root, []⟩

theorem head_pathBelow (dir : CString) (hdir : dir.bytes.head? = some 47)
    (names : List FileName) : (pathBelow dir names).bytes.head? = some 47 := by
  induction names generalizing dir with
  | nil => exact hdir
  | cons name names ih =>
      apply ih
      rw [entryPath_bytes, List.head?_append, hdir]
      rfl

theorem locate_workingPath (fs : FileSystem) :
    fs.locate fs.workingPath = fs.workingLocation := by
  unfold FileSystem.workingPath FileSystem.workingLocation
  cases hnames : fs.workingDir with
  | nil => rfl
  | cons name names =>
      have hhead : (pathBelow emptyPath (name :: names)).bytes.head? =
          some 47 := head_pathBelow _ rfl names
      have hne : (pathBelow emptyPath (name :: names)).bytes ≠ [] := by
        intro hnil
        rw [hnil] at hhead
        cases hhead
      have hruns := runs_pathBelow emptyPath (name :: names)
      show fs.locate (pathBelow emptyPath (name :: names)) = _
      rw [FileSystem.locate, if_neg hne, FileSystem.start, if_pos hhead, hruns]
      rfl

end OsLabs.Posix.FileTree
