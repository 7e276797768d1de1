import OsLabs.Posix.FileTree

/-!
# Collecting file names

`getFileNamesInDirRec`, `getFileNamesInDir` and the first half of `main` of
`duplicates.c`, on directory trees that do not change.  Every call of
`getFileNamesInDirRec` has two buffers of 256 bytes on the stack, and gets its
root as a pointer to a buffer of its caller; each regular file gets a block of
256 bytes.  The pointer to that block is declared as `allocedFileName` and
used as `fileNameSpace`, which are read as one variable here.

`getFileNamesInDir_exact`: where every path fits, the result is the list of
the regular files.  `searchWorkingDir_inBounds_iff`: no length is looked at, so
the copies stay inside the buffers exactly when every path that is put
together fits.
-/

namespace OsLabs.Lab1.FileNames

open OsLabs.Posix OsLabs.Posix.FileTree

/-! ## Processes -/

/-- `_DUP_MAXDIRBUFFERSIZE` -/
def maxDirBufferSize : Nat := 256

/-- `dirName` of `main`, and the buffers of the calls of
`getFileNamesInDirRec` that are under way, outermost first. -/
inductive Buffer where
  | dirName
  | fileNameBackup (level : Nat)
  | fileName (level : Nat)
  deriving Repr, DecidableEq

/-- The buffers in the order of the stack. -/
def Buffer.height : Buffer → Nat
  | .dirName => 0
  | .fileNameBackup level => 2 * level + 1
  | .fileName level => 2 * level + 2

/-- The process: its buffers, the elements of `arr` with the strings that they
point to, the heap, and how many calls it has made. -/
structure Search where
  buffers : Buffer → List (Option UInt8)
  arr : List (Block UInt8)
  heap : Heap
  opendirs : Nat
  stats : Nat

/-- Which calls fail, by their position among the calls of the same kind. -/
structure Environment where
  opendirFails : Nat → Bool
  statFails : Nat → Bool
  mallocFails : FailurePlan

/-- The environment in which every call succeeds that can. -/
def Environment.quiet : Environment :=
  ⟨fun _ => false, fun _ => false, noFailures⟩

/-- How a run ends other than by returning: `exit(EXIT_FAILURE)`, or a
fault. -/
inductive Stop where
  | exited
  | fault (f : Fault)
  deriving Repr, DecidableEq

/-- A step of the C library within the program. -/
def orFault {α : Type} (x : Except Fault α) : Except Stop α :=
  x.mapError .fault

@[simp] theorem orFault_ok {α : Type} (a : α) : orFault (.ok a) = .ok a := rfl

/-- The process with other contents of one buffer. -/
def Search.write (b : Buffer) (cells : List (Option UInt8)) (s : Search) :
    Search :=
  { s with buffers := fun b' => if b' = b then cells else s.buffers b' }

/-- The buffers of a new call. -/
def Search.enter (level : Nat) (s : Search) : Search :=
  (s.write (.fileName level) (indeterminate maxDirBufferSize)).write
    (.fileNameBackup level) (indeterminate maxDirBufferSize)

/-! ## The source -/

/-- `strcpy(dest, src)` between two buffers. -/
def copyInto (dest src : Buffer) (s : Search) : Except Stop Search := do
  let text ← orFault (loadString (s.buffers src) 0)
  let cells ← orFault (strcpy (s.buffers dest) text)
  return s.write dest cells

/-- `strcat(dest, text)` -/
def appendTo (dest : Buffer) (text : CString) (s : Search) :
    Except Stop Search := do
  let cells ← orFault (strcat (s.buffers dest) text)
  return s.write dest cells

section

variable (env : Environment) (fs : FileSystem)

/-- `opendir(path)`, and what `readdir` will return. -/
def opendirCall (path : CString) (s : Search) :
    Option (List CString) × Search :=
  let called := { s with opendirs := s.opendirs + 1 }
  if env.opendirFails s.opendirs then (none, called)
  else
    match fs.locate path with
    | some ⟨.directory entries, _⟩ => (some entries.names, called)
    | _ => (none, called)

/-- `stat(path)` -/
def statCall (path : CString) (s : Search) : Option Node × Search :=
  let called := { s with stats := s.stats + 1 }
  if env.statFails s.stats then (none, called)
  else ((fs.locate path).map Location.node, called)

/-- `DYNARR_addElem` of a copy of `fileName`. -/
def storeFileName (level : Nat) (s : Search) : Except Stop Search :=
  match s.heap.malloc env.mallocFails with
  | (none, _) => throw (.fault .nullDereference)
  | (some id, heap) => do
    let text ← orFault (loadString (s.buffers (.fileName level)) 0)
    let cells ← orFault (strcpy (indeterminate maxDirBufferSize) text)
    return { s with heap := heap, arr := s.arr ++ [⟨id, cells⟩] }

/-- What is done with an entry once its path is in `fileName`. -/
def handlePath (recurse : Buffer → Search → Except Stop Search) (level : Nat)
    (name : CString) (s : Search) : Except Stop Search := do
  let path ← orFault (loadString (s.buffers (.fileName level)) 0)
  match statCall env fs path s with
  | (none, _) => throw .exited
  | (some .regular, s) => storeFileName env level s
  | (some (.directory _), s) =>
    if name ≠ dot ∧ name ≠ dotDot then recurse (.fileName level) s
    else return s
  | (some .special, s) => return s

/-- The loop over the entries of a directory. -/
def readEntries (recurse : Buffer → Search → Except Stop Search)
    (level : Nat) : List CString → Search → Except Stop Search
  | [], s => return s
  | name :: names, s => do
    let s ← copyInto (.fileName level) (.fileNameBackup level) s
    let s ← appendTo (.fileName level) name s
    let s ← handlePath env fs recurse level name s
    readEntries recurse level names s

/-- `getFileNamesInDirRec`, with the level of the call. -/
def getFileNamesInDirRec : Nat → Nat → Buffer → Search → Except Stop Search
  | 0, _, _, _ => throw (.fault .outOfFuel)
  | fuel + 1, level, dirPath, s => do
    let path ← orFault (loadString (s.buffers dirPath) 0)
    match opendirCall env fs path s with
    | (none, _) => throw .exited
    | (some names, s) =>
      let s ← copyInto (.fileNameBackup level) dirPath (s.enter level)
      let s ← appendTo (.fileNameBackup level) slash s
      readEntries env fs (getFileNamesInDirRec fuel (level + 1)) level names s

/-- `getFileNamesInDir`, called with a pointer to these bytes. -/
def getFileNamesInDir (fuel : Nat) (dirName : List (Option UInt8))
    (heap : Heap) : Except Stop Search :=
  getFileNamesInDirRec env fs fuel 0 .dirName
    ⟨fun b => if b = .dirName then dirName else [], [], heap, 0, 0⟩

/-- `getcwd(dirName, _DUP_MAXDIRBUFFERSIZE)`: a path that is too long is not
stored. -/
def getcwd : List (Option UInt8) :=
  if fs.workingPath.bytes.length < maxDirBufferSize then
    fs.workingPath.image.map some ++
      indeterminate (maxDirBufferSize - fs.workingPath.image.length)
  else indeterminate maxDirBufferSize

/-- `main` up to the call of `getFileNamesInDir`. -/
def searchWorkingDir (fuel : Nat) (heap : Heap) : Except Stop Search :=
  getFileNamesInDir env fs fuel (getcwd fs) heap

end

/-! ## The strings that are put together -/

mutual

/-- What is put together for a file with this path: for a directory, the
common part of the paths of its entries, and what its entries need. -/
def nodeStrings (path : CString) : Node → List CString
  | .regular => []
  | .special => []
  | .directory entries => path.append slash :: entryStrings path entries

/-- What is put together for the entries of the directory with path `dir`. -/
def entryStrings (dir : CString) : Entries → List CString
  | .nil => []
  | .dot rest => entryPath dir dot :: entryStrings dir rest
  | .dotDot rest => entryPath dir dotDot :: entryStrings dir rest
  | .child name node rest =>
    entryPath dir name.text ::
      (nodeStrings (entryPath dir name.text) node ++ entryStrings dir rest)

end

/-- Every one of these strings fits a buffer. -/
def Fit (strings : List CString) : Prop :=
  ∀ s ∈ strings, s.bytes.length < maxDirBufferSize

theorem fit_cons {s : CString} {strings : List CString} :
    Fit (s :: strings) ↔
      s.bytes.length < maxDirBufferSize ∧ Fit strings := by
  simp only [Fit, List.mem_cons, forall_eq_or_imp]

theorem fit_append {strings strings' : List CString} :
    Fit (strings ++ strings') ↔ Fit strings ∧ Fit strings' := by
  simp only [Fit, List.mem_append, or_imp, forall_and]

theorem fit_nil : Fit [] := by
  intro s h
  cases h

/-! ## The buffers of the outer calls -/

/-- The buffers below this height are as they were. -/
def Intact (height : Nat) (s s' : Search) : Prop :=
  ∀ b, b.height < height → s'.buffers b = s.buffers b

section Intact

variable {env : Environment} {fs : FileSystem} {s s' s'' : Search}
  {dest src : Buffer} {text name : CString} {names : List CString}
  {cells : List (Option UInt8)} {height height' level fuel : Nat}
  {recurse : Buffer → Search → Except Stop Search}

theorem Intact.refl (height : Nat) (s : Search) : Intact height s s :=
  fun _ _ => rfl

theorem Intact.trans (h : Intact height s s') (h' : Intact height s' s'') :
    Intact height s s'' :=
  fun b hb => (h' b hb).trans (h b hb)

theorem Intact.mono (h : Intact height' s s') (hle : height ≤ height') :
    Intact height s s' :=
  fun b hb => h b (Nat.lt_of_lt_of_le hb hle)

theorem Intact.of_eq (h : s'.buffers = s.buffers) : Intact height s s' :=
  fun b _ => congrFun h b

theorem write_same (b : Buffer) (cells : List (Option UInt8)) (s : Search) :
    (s.write b cells).buffers b = cells :=
  if_pos rfl

theorem write_other {b b' : Buffer} (hne : b' ≠ b)
    (cells : List (Option UInt8)) (s : Search) :
    (s.write b cells).buffers b' = s.buffers b' :=
  if_neg hne

theorem write_write (b : Buffer) (cells cells' : List (Option UInt8))
    (s : Search) : (s.write b cells).write b cells' = s.write b cells' := by
  have hbuffers : ((s.write b cells).write b cells').buffers =
      (s.write b cells').buffers := by
    funext b'
    by_cases heq : b' = b
    · rw [heq, write_same, write_same]
    · rw [write_other heq, write_other heq, write_other heq]
  rw [Search.write, Search.mk.injEq]
  exact ⟨hbuffers, rfl, rfl, rfl, rfl⟩

theorem write_intact (hle : height ≤ dest.height) :
    Intact height s (s.write dest cells) := by
  intro b hb
  have hne : b ≠ dest := by
    intro heq
    rw [heq] at hb
    omega
  exact write_other hne cells s

theorem enter_intact : Intact (2 * level + 1) s (s.enter level) := by
  have hfileName : Intact (2 * level + 1) s (s.write (.fileName level)
      (indeterminate maxDirBufferSize)) := write_intact (Nat.le_succ _)
  exact hfileName.trans (write_intact (Nat.le_refl _))

theorem copyInto_intact (h : copyInto dest src s = .ok s')
    (hle : height ≤ dest.height) : Intact height s s' := by
  rw [copyInto, except_bind_eq_ok] at h
  obtain ⟨text, -, h⟩ := h
  rw [except_bind_eq_ok] at h
  obtain ⟨cells, -, h⟩ := h
  cases h
  exact write_intact hle

theorem appendTo_intact (h : appendTo dest text s = .ok s')
    (hle : height ≤ dest.height) : Intact height s s' := by
  rw [appendTo, except_bind_eq_ok] at h
  obtain ⟨cells, -, h⟩ := h
  cases h
  exact write_intact hle

theorem storeFileName_intact (h : storeFileName env level s = .ok s') :
    Intact height s s' := by
  unfold storeFileName at h
  split at h
  · cases h
  · rw [except_bind_eq_ok] at h
    obtain ⟨text, -, h⟩ := h
    rw [except_bind_eq_ok] at h
    obtain ⟨cells, -, h⟩ := h
    cases h
    exact Intact.of_eq rfl

theorem statCall_intact {path : CString} {result : Option Node}
    (h : statCall env fs path s = (result, s')) : Intact height s s' := by
  unfold statCall at h
  split at h
  · cases h
    exact Intact.of_eq rfl
  · cases h
    exact Intact.of_eq rfl

theorem opendirCall_intact {path : CString} {result : Option (List CString)}
    (h : opendirCall env fs path s = (result, s')) : Intact height s s' := by
  unfold opendirCall at h
  split at h
  · cases h
    exact Intact.of_eq rfl
  · split at h
    · cases h
      exact Intact.of_eq rfl
    · cases h
      exact Intact.of_eq rfl

theorem handlePath_intact
    (hrecurse : ∀ s s', recurse (.fileName level) s = .ok s' →
      Intact (2 * level + 3) s s')
    (h : handlePath env fs recurse level name s = .ok s') :
    Intact (2 * level + 3) s s' := by
  rw [handlePath, except_bind_eq_ok] at h
  obtain ⟨path, -, h⟩ := h
  split at h
  · cases h
  · rename_i called hstat
    exact (statCall_intact hstat).trans (storeFileName_intact h)
  · rename_i entries called hstat
    split at h
    · exact (statCall_intact hstat).trans (hrecurse _ _ h)
    · cases h
      exact statCall_intact hstat
  · rename_i called hstat
    cases h
    exact statCall_intact hstat

theorem readEntries_intact
    (hrecurse : ∀ s s', recurse (.fileName level) s = .ok s' →
      Intact (2 * level + 3) s s')
    (h : readEntries env fs recurse level names s = .ok s') :
    Intact (2 * level + 2) s s' := by
  induction names generalizing s with
  | nil =>
      cases h
      exact Intact.refl _ _
  | cons name names ih =>
      rw [readEntries, except_bind_eq_ok] at h
      obtain ⟨copied, hcopy, h⟩ := h
      rw [except_bind_eq_ok] at h
      obtain ⟨appended, happend, h⟩ := h
      rw [except_bind_eq_ok] at h
      obtain ⟨handled, hhandle, h⟩ := h
      have hbuilt : Intact (2 * level + 2) s appended :=
        (copyInto_intact hcopy (Nat.le_refl _)).trans
          (appendTo_intact happend (Nat.le_refl _))
      have hhandled : Intact (2 * level + 2) appended handled :=
        (handlePath_intact hrecurse hhandle).mono (Nat.le_succ _)
      exact (hbuilt.trans hhandled).trans (ih h)

/-- **A call leaves the buffers of the outer calls as they were.** -/
theorem getFileNamesInDirRec_intact {dirPath : Buffer}
    (h : getFileNamesInDirRec env fs fuel level dirPath s = .ok s') :
    Intact (2 * level + 1) s s' := by
  induction fuel generalizing level dirPath s s' with
  | zero => cases h
  | succ fuel ih =>
      rw [getFileNamesInDirRec, except_bind_eq_ok] at h
      obtain ⟨path, -, h⟩ := h
      split at h
      · cases h
      · rename_i names called hopendir
        rw [except_bind_eq_ok] at h
        obtain ⟨copied, hcopy, h⟩ := h
        rw [except_bind_eq_ok] at h
        obtain ⟨appended, happend, h⟩ := h
        have hentered : Intact (2 * level + 1) s (called.enter level) :=
          (opendirCall_intact hopendir).trans enter_intact
        have hbuilt : Intact (2 * level + 1) (called.enter level) appended :=
          (copyInto_intact hcopy (Nat.le_refl _)).trans
            (appendTo_intact happend (Nat.le_refl _))
        have hread : Intact (2 * level + 2) appended s' :=
          readEntries_intact (fun _ _ hrec => ih hrec) h
        exact (hentered.trans hbuilt).trans (hread.mono (Nat.le_succ _))

end Intact

/-! ## How a run may end -/

/-- Some call fails. -/
def Environment.Fails (env : Environment) : Prop :=
  (∃ n, env.opendirFails n = true) ∨ (∃ n, env.statFails n = true) ∨
    ∃ n, env.mallocFails n = true

/-- The ends of a run that returns in a state with `post` where `fits` holds
and leaves a buffer where it does not.  It may run out of fuel where `deep`
holds. -/
inductive Ends (env : Environment) (deep fits : Prop) (post : Search → Prop) :
    Except Stop Search → Prop where
  | exited : env.Fails → Ends env deep fits post (.error .exited)
  | refused :
      env.Fails → Ends env deep fits post (.error (.fault .nullDereference))
  | outOfFuel : deep → Ends env deep fits post (.error (.fault .outOfFuel))
  | overflow :
      ¬ fits → Ends env deep fits post (.error (.fault .outOfBounds))
  | returned {s : Search} : fits → post s → Ends env deep fits post (.ok s)

section Ends

variable {env : Environment} {deep deep' fits fits' : Prop}
  {post post' : Search → Prop} {x : Except Stop Search}
  {f : Search → Except Stop Search}

theorem Ends.weaken (h : Ends env deep fits post x) (hdeep : deep → deep')
    (hfits : fits ↔ fits') (hpost : ∀ s, post s → post' s) :
    Ends env deep' fits' post' x := by
  cases h with
  | exited hfails => exact .exited hfails
  | refused hfails => exact .refused hfails
  | outOfFuel h => exact .outOfFuel (hdeep h)
  | overflow h => exact .overflow (fun hfit => h (hfits.mpr hfit))
  | returned hfit hs => exact .returned (hfits.mp hfit) (hpost _ hs)

/-- One step after the other. -/
theorem Ends.bind (h : Ends env deep fits post x)
    (hf : ∀ s, x = .ok s → post s → Ends env deep fits' post' (f s)) :
    Ends env deep (fits ∧ fits') post' (x >>= f) := by
  cases h with
  | exited hfails => exact .exited hfails
  | refused hfails => exact .refused hfails
  | outOfFuel h => exact .outOfFuel h
  | overflow h => exact .overflow (fun hfit => h hfit.1)
  | returned hfit hs =>
      exact (hf _ rfl hs).weaken id (and_iff_right hfit).symm (fun _ => id)

end Ends

/-! ## One entry -/

/-- The elements that `arr` has got are these strings. -/
def Found (files : List CString) (s s' : Search) : Prop :=
  ∃ blocks, s'.arr = s.arr ++ blocks ∧
    blocks.map (fun block => loadString block.cells 0) = files.map .ok

/-- The buffers of a call between two entries. -/
structure Ready (level : Nat) (dir : CString) (s : Search) : Prop where
  backup : HoldsString maxDirBufferSize (dir.append slash)
    (s.buffers (.fileNameBackup level))
  room : (s.buffers (.fileName level)).length = maxDirBufferSize

section Steps

variable {env : Environment} {fs : FileSystem} {deep fits fits' : Prop}
  {s s' s'' : Search} {dest src : Buffer} {text dir path name : CString}
  {names : List CString} {files files' : List CString} {level fuel : Nat}
  {recurse : Buffer → Search → Except Stop Search} {node : Node}
  {entries : Entries} {above : List Entries}

theorem Found.of_arr_eq (h : s'.arr = s.arr) : Found [] s s' :=
  ⟨[], h.trans (List.append_nil _).symm, rfl⟩

theorem Found.trans (h : Found files s s') (h' : Found files' s' s'') :
    Found (files ++ files') s s'' := by
  obtain ⟨blocks, harr, hstrings⟩ := h
  obtain ⟨blocks', harr', hstrings'⟩ := h'
  refine ⟨blocks ++ blocks', ?_, ?_⟩
  · rw [harr', harr, List.append_assoc]
  · rw [List.map_append, List.map_append, hstrings, hstrings']

theorem Found.of_start {start : Search} (h : Found files s s')
    (harr : s.arr = start.arr) : Found files start s' := by
  obtain ⟨blocks, harr', hstrings⟩ := h
  exact ⟨blocks, harr ▸ harr', hstrings⟩

theorem Ready.intact {height : Nat} (h : Ready level dir s)
    (hintact : Intact height s s') (hheight : 2 * level + 3 ≤ height) :
    Ready level dir s' := by
  have hbackup := hintact (.fileNameBackup level)
    (show 2 * level + 1 < height by omega)
  have hfileName := hintact (.fileName level)
    (show 2 * level + 2 < height by omega)
  exact ⟨hbackup ▸ h.backup, hfileName ▸ h.room⟩

theorem copyInto_ends (hload : loadString (s.buffers src) 0 = .ok text)
    (hlength : (s.buffers dest).length = maxDirBufferSize) :
    Ends env deep (text.bytes.length < maxDirBufferSize)
      (fun s' => ∃ cells, HoldsString maxDirBufferSize text cells ∧
        s' = s.write dest cells) (copyInto dest src s) := by
  unfold copyInto
  rw [hload]
  by_cases hfit : text.bytes.length < maxDirBufferSize
  · obtain ⟨cells, hcopy, hheld⟩ := strcpy_fits (hlength.symm ▸ hfit)
    rw [hlength] at hheld
    show Ends env deep _ _ (orFault (strcpy (s.buffers dest) text) >>= _)
    rw [hcopy]
    exact .returned hfit ⟨cells, hheld, rfl⟩
  · have hcopy : strcpy (s.buffers dest) text = .error .outOfBounds :=
      strcpy_overflow (hlength.symm ▸ Nat.le_of_not_lt hfit)
    show Ends env deep _ _ (orFault (strcpy (s.buffers dest) text) >>= _)
    rw [hcopy]
    exact .overflow hfit

theorem appendTo_ends
    (hheld : HoldsString maxDirBufferSize text (s.buffers dest)) :
    Ends env deep ((text.append name).bytes.length < maxDirBufferSize)
      (fun s' => ∃ cells,
        HoldsString maxDirBufferSize (text.append name) cells ∧
        s' = s.write dest cells) (appendTo dest name s) := by
  unfold appendTo
  by_cases hfit : (text.append name).bytes.length < maxDirBufferSize
  · obtain ⟨cells, happend, hheld'⟩ := strcat_fits hheld hfit
    rw [happend]
    exact .returned hfit ⟨cells, hheld', rfl⟩
  · rw [strcat_overflow hheld (Nat.le_of_not_lt hfit)]
    exact .overflow hfit

/-- A path in two parts is put together. -/
theorem copyAppend_ends (hload : loadString (s.buffers src) 0 = .ok text)
    (hlength : (s.buffers dest).length = maxDirBufferSize) (name : CString) :
    Ends env deep ((text.append name).bytes.length < maxDirBufferSize)
      (fun s' => ∃ cells,
        HoldsString maxDirBufferSize (text.append name) cells ∧
        s' = s.write dest cells)
      (copyInto dest src s >>= appendTo dest name) := by
  have hcopy : Ends env deep _ _ (copyInto dest src s) :=
    copyInto_ends hload hlength
  have happend : ∀ copied, copyInto dest src s = .ok copied →
      (∃ cells, HoldsString maxDirBufferSize text cells ∧
        copied = s.write dest cells) →
      Ends env deep ((text.append name).bytes.length < maxDirBufferSize)
        (fun s' => ∃ cells,
          HoldsString maxDirBufferSize (text.append name) cells ∧
          s' = s.write dest cells) (appendTo dest name copied) := by
    rintro copied - ⟨cells, hheld, rfl⟩
    have hsame := write_same dest cells s
    refine (appendTo_ends (hsame.symm ▸ hheld)).weaken id Iff.rfl ?_
    rintro s' ⟨cells', hheld', rfl⟩
    exact ⟨cells', hheld', write_write dest cells cells' s⟩
  have hlonger : text.bytes.length ≤ (text.append name).bytes.length := by
    rw [CString.bytes_append, List.length_append]
    omega
  refine (hcopy.bind happend).weaken id ?_ (fun _ => id)
  exact and_iff_right_of_imp (fun hfit => Nat.lt_of_le_of_lt hlonger hfit)

theorem storeFileName_ends
    (hheld : HoldsString maxDirBufferSize path (s.buffers (.fileName level))) :
    Ends env deep True (Found [path] s) (storeFileName env level s) := by
  unfold storeFileName
  cases hfails : env.mallocFails s.heap.calls with
  | true =>
      rw [Heap.malloc_refused hfails]
      exact .refused (Or.inr (Or.inr ⟨_, hfails⟩))
  | false =>
      have hroom : path.bytes.length < (indeterminate maxDirBufferSize :
          List (Option UInt8)).length := by
        rw [indeterminate, List.length_replicate]
        exact hheld.lt
      obtain ⟨cells, hcopy, hcopied⟩ := strcpy_fits hroom
      rw [Heap.malloc_granted hfails, hheld.load]
      show Ends env deep _ _
        (orFault (strcpy (indeterminate maxDirBufferSize) path) >>= _)
      rw [hcopy]
      refine .returned trivial ⟨[_], rfl, ?_⟩
      show [loadString cells 0] = [.ok path]
      rw [hcopied.load]

/-- `stat` of a file that exists. -/
theorem statCall_located (env : Environment)
    (hlocate : fs.locate path = some ⟨node, above⟩) (s : Search) :
    (env.statFails s.stats = true ∧ statCall env fs path s =
      (none, { s with stats := s.stats + 1 })) ∨
    (statCall env fs path s =
      (some node, { s with stats := s.stats + 1 })) := by
  unfold statCall
  cases hfails : env.statFails s.stats with
  | true => exact Or.inl ⟨rfl, rfl⟩
  | false =>
      right
      rw [hlocate]
      rfl

/-- `.` and `..` are looked at only. -/
theorem handlePath_dots
    (hheld : HoldsString maxDirBufferSize path (s.buffers (.fileName level)))
    (hlocate : fs.locate path = some ⟨.directory entries, above⟩)
    (hname : name = dot ∨ name = dotDot) :
    Ends env deep True (Found [] s)
      (handlePath env fs recurse level name s) := by
  have hskip : ¬ (name ≠ dot ∧ name ≠ dotDot) := by
    rintro ⟨hdot, hdotDot⟩
    exact hname.elim hdot hdotDot
  unfold handlePath
  rw [hheld.load, orFault_ok, except_ok_bind]
  rcases statCall_located env hlocate s with ⟨hfails, hstat⟩ | hstat
  · rw [hstat]
    exact .exited (Or.inr (Or.inl ⟨_, hfails⟩))
  · rw [hstat]
    show Ends env deep _ _ (if _ then _ else _)
    rw [if_neg hskip]
    exact .returned trivial (Found.of_arr_eq rfl)

/-- Any other entry: a regular file is stored, a directory is searched. -/
theorem handlePath_child {name : FileName}
    (hheld : HoldsString maxDirBufferSize path (s.buffers (.fileName level)))
    (hlocate : fs.locate path = some ⟨node, above⟩)
    (hrecurse : ∀ entries s, node = .directory entries →
      HoldsString maxDirBufferSize path (s.buffers (.fileName level)) →
      Ends env deep (Fit (nodeStrings path node))
        (Found (node.filePaths path) s) (recurse (.fileName level) s)) :
    Ends env deep (Fit (nodeStrings path node)) (Found (node.filePaths path) s)
      (handlePath env fs recurse level name.text s) := by
  unfold handlePath
  rw [hheld.load, orFault_ok, except_ok_bind]
  rcases statCall_located env hlocate s with ⟨hfails, hstat⟩ | hstat
  · rw [hstat]
    exact .exited (Or.inr (Or.inl ⟨_, hfails⟩))
  · rw [hstat]
    cases node with
    | regular =>
        have hstore : Ends env deep True
            (Found [path] { s with stats := s.stats + 1 })
            (storeFileName env level { s with stats := s.stats + 1 }) :=
          storeFileName_ends hheld
        exact hstore.weaken id (iff_of_true trivial fit_nil)
          (fun _ hfound => hfound.of_start rfl)
    | special => exact .returned fit_nil (Found.of_arr_eq rfl)
    | directory entries =>
        show Ends env deep _ _ (if _ then _ else _)
        rw [if_pos ⟨name.notDot, name.notDotDot⟩]
        have hsearch := hrecurse entries { s with stats := s.stats + 1 } rfl
          hheld
        exact hsearch.weaken id Iff.rfl (fun _ hfound => hfound.of_start rfl)

/-! ## The loop over the entries -/

/-- The path of an entry has been put together. -/
structure Built (level : Nat) (dir name : CString) (s s' : Search) :
    Prop where
  arr : s'.arr = s.arr
  held : HoldsString maxDirBufferSize (entryPath dir name)
    (s'.buffers (.fileName level))
  ready : Ready level dir s'

theorem buildPath_ends (hready : Ready level dir s) (name : CString) :
    Ends env deep ((entryPath dir name).bytes.length < maxDirBufferSize)
      (Built level dir name s)
      (copyInto (.fileName level) (.fileNameBackup level) s >>=
        appendTo (.fileName level) name) := by
  have hends : Ends env deep _ _ _ :=
    copyAppend_ends hready.backup.load hready.room name
  refine hends.weaken id Iff.rfl ?_
  rintro s' ⟨cells, hheld, rfl⟩
  have hsame := write_same (.fileName level) cells s
  refine ⟨rfl, hsame.symm ▸ hheld, hready.backup, ?_⟩
  rw [hsame]
  exact hheld.length

/-- One entry and the rest of the loop. -/
theorem readEntries_cons
    (hintact : ∀ s s', recurse (.fileName level) s = .ok s' →
      Intact (2 * level + 3) s s')
    (hhandle : ∀ s', HoldsString maxDirBufferSize (entryPath dir name)
        (s'.buffers (.fileName level)) →
      Ends env deep fits (Found files s')
        (handlePath env fs recurse level name s'))
    (hrest : ∀ s', Ready level dir s' →
      Ends env deep fits' (Found files' s')
        (readEntries env fs recurse level names s'))
    (hready : Ready level dir s) :
    Ends env deep
      ((entryPath dir name).bytes.length < maxDirBufferSize ∧ fits ∧ fits')
      (Found (files ++ files') s)
      (readEntries env fs recurse level (name :: names) s) := by
  have hbuild : Ends env deep _ (Built level dir name s) _ :=
    buildPath_ends hready name
  have hsteps := hbuild.bind fun built _ hbuilt =>
    (hhandle built hbuilt.held).bind fun handled hhandled hfound =>
      (hrest handled (hbuilt.ready.intact
        (handlePath_intact hintact hhandled) (Nat.le_refl _))).weaken id
          Iff.rfl (fun s' hfound' =>
            (hfound.trans hfound').of_start hbuilt.arr)
  rw [bind_assoc] at hsteps
  exact hsteps

/-- What the entries need of the calls for directories among them. -/
structure Children (env : Environment) (fs : FileSystem) (fuel level : Nat)
    (recurse : Buffer → Search → Except Stop Search) (dir : CString)
    (entries : Entries) : Prop where
  located : ∀ name node, entries.Has name node →
    ∃ above, fs.locate (entryPath dir name.text) = some ⟨node, above⟩
  searched : ∀ name entries' s, entries.Has name (.directory entries') →
    HoldsString maxDirBufferSize (entryPath dir name.text)
      (s.buffers (.fileName level)) →
    Ends env (fuel < (Node.directory entries').depth)
      (Fit (nodeStrings (entryPath dir name.text) (.directory entries')))
      (Found (entries'.filePaths (entryPath dir name.text)) s)
      (recurse (.fileName level) s)

theorem Children.mono {rest : Entries}
    (h : Children env fs fuel level recurse dir entries)
    (hsub : ∀ name node, rest.Has name node → entries.Has name node) :
    Children env fs fuel level recurse dir rest :=
  ⟨fun name node hhas => h.located name node (hsub name node hhas),
    fun name entries' s hhas =>
      h.searched name entries' s (hsub name _ hhas)⟩

/-- The whole loop, by recursion over the entries. -/
theorem readEntries_ends
    (hlocate : fs.locate dir = some ⟨.directory entries, above⟩)
    (hintact : ∀ s s', recurse (.fileName level) s = .ok s' →
      Intact (2 * level + 3) s s') :
    (rest : Entries) → Children env fs fuel level recurse dir rest →
    ∀ s, Ready level dir s →
      Ends env (fuel < rest.depth) (Fit (entryStrings dir rest))
        (Found (rest.filePaths dir) s)
        (readEntries env fs recurse level rest.names s)
  | .nil, _, s, _ => .returned fit_nil (Found.of_arr_eq rfl)
  | .dot rest, hchildren, s, hready => by
      have hrest := readEntries_ends hlocate hintact rest
        (hchildren.mono fun _ _ => .dot)
      have hround := readEntries_cons hintact (fun s' hheld =>
        handlePath_dots hheld (locate_dot hlocate) (Or.inl rfl)) hrest hready
      apply hround.weaken id _ (fun _ => id)
      rw [true_and]
      exact fit_cons.symm
  | .dotDot rest, hchildren, s, hready => by
      obtain ⟨parent, above', hparent⟩ := locate_dotDot hlocate
      have hrest := readEntries_ends hlocate hintact rest
        (hchildren.mono fun _ _ => .dotDot)
      have hround := readEntries_cons hintact (fun s' hheld =>
        handlePath_dots hheld hparent (Or.inr rfl)) hrest hready
      apply hround.weaken id _ (fun _ => id)
      rw [true_and]
      exact fit_cons.symm
  | .child name node rest, hchildren, s, hready => by
      obtain ⟨above', hchild⟩ := hchildren.located name node .here
      have hrest := readEntries_ends hlocate hintact rest
        (hchildren.mono fun _ _ => .child)
      have hsearch : ∀ entries' s, node = .directory entries' →
          HoldsString maxDirBufferSize (entryPath dir name.text)
            (s.buffers (.fileName level)) →
          Ends env (fuel < max node.depth rest.depth)
            (Fit (nodeStrings (entryPath dir name.text) node))
            (Found (node.filePaths (entryPath dir name.text)) s)
            (recurse (.fileName level) s) := by
        rintro entries' s rfl hheld
        exact (hchildren.searched name entries' s .here hheld).weaken
          (fun hlt => by omega) Iff.rfl (fun _ => id)
      have hrest' : ∀ s, Ready level dir s →
          Ends env (fuel < max node.depth rest.depth)
            (Fit (entryStrings dir rest)) (Found (rest.filePaths dir) s)
            (readEntries env fs recurse level rest.names s) := by
        intro s hready
        exact (hrest s hready).weaken (fun hlt => by omega)
          Iff.rfl (fun _ => id)
      have hround := readEntries_cons hintact (fun s' hheld =>
        handlePath_child hheld hchild hsearch) hrest' hready
      apply hround.weaken id _ (fun _ => id)
      rw [← fit_append]
      exact fit_cons.symm

/-! ## A call -/

theorem opendirCall_located (env : Environment)
    (hlocate : fs.locate dir = some ⟨.directory entries, above⟩)
    (s : Search) :
    (env.opendirFails s.opendirs = true ∧ opendirCall env fs dir s =
      (none, { s with opendirs := s.opendirs + 1 })) ∨
    (opendirCall env fs dir s =
      (some entries.names, { s with opendirs := s.opendirs + 1 })) := by
  unfold opendirCall
  cases hfails : env.opendirFails s.opendirs with
  | true => exact Or.inl ⟨rfl, rfl⟩
  | false =>
      right
      rw [hlocate]
      rfl

/-- The common part of the paths of the entries is put together. -/
theorem enter_ends {dirPath : Buffer}
    (hload : loadString (s.buffers dirPath) 0 = .ok dir)
    (hbelow : dirPath.height < 2 * level + 1) :
    Ends env deep ((dir.append slash).bytes.length < maxDirBufferSize)
      (fun s' => s'.arr = s.arr ∧ Ready level dir s')
      (copyInto (.fileNameBackup level) dirPath (s.enter level) >>=
        appendTo (.fileNameBackup level) slash) := by
  have hbackup := write_same (.fileNameBackup level)
    (indeterminate maxDirBufferSize)
    (s.write (.fileName level) (indeterminate maxDirBufferSize))
  have hsource : (s.enter level).buffers dirPath = s.buffers dirPath :=
    enter_intact dirPath hbelow
  have hlength : ((s.enter level).buffers (.fileNameBackup level)).length =
      maxDirBufferSize := by
    rw [Search.enter, hbackup]
    exact List.length_replicate
  have hends : Ends env deep _ _ _ :=
    copyAppend_ends (hsource.symm ▸ hload) hlength slash
  refine hends.weaken id Iff.rfl ?_
  rintro s' ⟨cells, hheld, rfl⟩
  have hsame := write_same (.fileNameBackup level) cells (s.enter level)
  have hne : Buffer.fileName level ≠ .fileNameBackup level :=
    fun heq => by cases heq
  refine ⟨rfl, hsame.symm ▸ hheld, ?_⟩
  rw [write_other hne, Search.enter, write_other hne, write_same]
  exact List.length_replicate

/-- **A call of `getFileNamesInDirRec`**, by induction on the fuel. -/
theorem getFileNamesInDirRec_ends {dirPath : Buffer}
    (hload : loadString (s.buffers dirPath) 0 = .ok dir)
    (hbelow : dirPath.height < 2 * level + 1)
    (hlocate : fs.locate dir = some ⟨.directory entries, above⟩)
    (hdistinct : entries.Distinct) :
    Ends env (fuel < (Node.directory entries).depth)
      (Fit (nodeStrings dir (.directory entries)))
      (Found (entries.filePaths dir) s)
      (getFileNamesInDirRec env fs fuel level dirPath s) := by
  induction fuel generalizing level dirPath dir entries above s with
  | zero => exact .outOfFuel (Nat.succ_pos _)
  | succ fuel ih =>
      rw [getFileNamesInDirRec, hload, orFault_ok, except_ok_bind]
      rcases opendirCall_located env hlocate s with
        ⟨hfails, hopendir⟩ | hopendir
      · rw [hopendir]
        exact .exited (Or.inl ⟨_, hfails⟩)
      · rw [hopendir]
        have hchildren : Children env fs fuel level
            (getFileNamesInDirRec env fs fuel (level + 1)) dir entries := by
          constructor
          · intro name node hhas
            exact ⟨_, locate_child hlocate (hhas.find_eq hdistinct)⟩
          · intro name entries' s' hhas hheld
            exact ih hheld.load
              (show 2 * level + 2 < 2 * (level + 1) + 1 by omega)
              (locate_child hlocate (hhas.find_eq hdistinct))
              (hhas.distinct hdistinct)
        have hloop := readEntries_ends hlocate
          (fun _ _ => getFileNamesInDirRec_intact) entries hchildren
        have hprepare : Ends env (fuel < entries.depth) _ _ _ :=
          enter_ends (s := { s with opendirs := s.opendirs + 1 }) hload hbelow
        have hcall := hprepare.bind fun prepared _ hprepared =>
          (hloop prepared hprepared.2).weaken id Iff.rfl
            (fun _ hfound => hfound.of_start hprepared.1)
        rw [bind_assoc] at hcall
        exact hcall.weaken Nat.succ_lt_succ fit_cons.symm (fun _ => id)

end Steps

/-! ## The whole search -/

section Search

variable {fs : FileSystem} {dirName : CString} {entries : Entries}
  {above : List Entries} {cells : List (Option UInt8)} {fuel : Nat}

theorem getFileNamesInDir_ends (env : Environment)
    (hlocate : fs.locate dirName = some ⟨.directory entries, above⟩)
    (hdistinct : entries.Distinct)
    (hcells : loadString cells 0 = .ok dirName) (heap : Heap) :
    Ends env (fuel < entries.depth + 1)
      (Fit (nodeStrings dirName (.directory entries)))
      (fun s' => s'.arr.map (fun block => loadString block.cells 0) =
        (entries.filePaths dirName).map .ok)
      (getFileNamesInDir env fs fuel cells heap) := by
  have hbelow : Buffer.dirName.height < 2 * 0 + 1 := Nat.one_pos
  have hends : Ends env _ _ _ (getFileNamesInDir env fs fuel cells heap) :=
    getFileNamesInDirRec_ends hcells hbelow hlocate hdistinct
  refine hends.weaken id Iff.rfl ?_
  rintro s' ⟨blocks, harr, hstrings⟩
  rw [harr]
  exact hstrings

theorem not_quiet_fails : ¬ Environment.quiet.Fails := by
  rintro (⟨n, h⟩ | ⟨n, h⟩ | ⟨n, h⟩) <;> cases h

/-- When every call succeeds it depends on the strings only whether a run with
enough fuel returns. -/
theorem getFileNamesInDir_quiet
    (hlocate : fs.locate dirName = some ⟨.directory entries, above⟩)
    (hdistinct : entries.Distinct)
    (hcells : loadString cells 0 = .ok dirName) (heap : Heap)
    (hfuel : entries.depth < fuel) :
    (Fit (nodeStrings dirName (.directory entries)) ∧
      ∃ s', getFileNamesInDir .quiet fs fuel cells heap = .ok s' ∧
        s'.arr.map (fun block => loadString block.cells 0) =
          (entries.filePaths dirName).map .ok) ∨
    (¬ Fit (nodeStrings dirName (.directory entries)) ∧
      getFileNamesInDir .quiet fs fuel cells heap =
        .error (.fault .outOfBounds)) := by
  have hends : Ends .quiet (fuel < entries.depth + 1) _ _
      (getFileNamesInDir .quiet fs fuel cells heap) :=
    getFileNamesInDir_ends .quiet hlocate hdistinct hcells heap
  generalize getFileNamesInDir .quiet fs fuel cells heap = result
    at hends ⊢
  cases hends with
  | exited hfails => exact absurd hfails not_quiet_fails
  | refused hfails => exact absurd hfails not_quiet_fails
  | outOfFuel hdeep => exact absurd hdeep (by omega)
  | overflow hfit => exact Or.inr ⟨hfit, rfl⟩
  | returned hfit hs => exact Or.inl ⟨hfit, _, rfl, hs⟩

/-- **`getFileNamesInDir` returns the regular files** below the directory,
depth first, each of them once and nothing else, where everything that is put
together fits; and no call changes a buffer of the calls around it. -/
theorem getFileNamesInDir_exact
    (hlocate : fs.locate dirName = some ⟨.directory entries, above⟩)
    (hdistinct : entries.Distinct)
    (hcells : loadString cells 0 = .ok dirName) (heap : Heap)
    (hfit : Fit (nodeStrings dirName (.directory entries)))
    (hfuel : entries.depth < fuel) :
    (∃ s', getFileNamesInDir .quiet fs fuel cells heap = .ok s' ∧
      s'.arr.map (fun block => loadString block.cells 0) =
        (entries.filePaths dirName).map .ok) ∧
    (entries.filePaths dirName).Nodup ∧
    (∀ path, path ∈ entries.filePaths dirName ↔
      ∃ names, (Node.directory entries).Leads names .regular ∧
        path = pathBelow dirName names) ∧
    ∀ fuel level dirPath s s',
      getFileNamesInDirRec .quiet fs fuel level dirPath s = .ok s' →
      ∀ b, b.height < 2 * level + 1 → s'.buffers b = s.buffers b := by
  refine ⟨?_, Entries.filePaths_nodup entries dirName hdistinct,
    fun path => Node.mem_filePaths (.directory entries) path dirName,
    fun _ _ _ _ _ => getFileNamesInDirRec_intact⟩
  rcases getFileNamesInDir_quiet hlocate hdistinct hcells heap hfuel with
    ⟨-, hreturned⟩ | ⟨hnot, -⟩
  · exact hreturned
  · exact absurd hfit hnot

theorem getcwd_load (hroot : fs.workingPath.bytes.length < maxDirBufferSize) :
    loadString (getcwd fs) 0 = .ok fs.workingPath := by
  rw [getcwd, if_pos hroot, loadString, List.drop_zero, CString.image_append,
    takeString_append]

/-- **The copies stay inside the buffers**, whichever calls fail, exactly when
everything that is put together fits. -/
theorem searchWorkingDir_inBounds_iff
    (hworking : fs.workingLocation = some ⟨.directory entries, above⟩)
    (hdistinct : entries.Distinct)
    (hroot : fs.workingPath.bytes.length < maxDirBufferSize) :
    (∀ env fuel heap, searchWorkingDir env fs fuel heap ≠
        .error (.fault .outOfBounds)) ↔
      Fit (nodeStrings fs.workingPath (.directory entries)) := by
  have hlocate := (locate_workingPath fs).trans hworking
  have hcells := getcwd_load hroot
  constructor
  · intro hsafe
    rcases getFileNamesInDir_quiet hlocate hdistinct hcells Heap.empty
      (Nat.lt_succ_self entries.depth) with ⟨hfit, -⟩ | ⟨-, hoverflow⟩
    · exact hfit
    · exact absurd hoverflow (hsafe _ _ _)
  · intro hfit env fuel heap hoverflow
    have hends : Ends env (fuel < entries.depth + 1) _ _
        (searchWorkingDir env fs fuel heap) :=
      getFileNamesInDir_ends env hlocate hdistinct hcells heap
    rw [hoverflow] at hends
    cases hends with
    | overflow hnot => exact hnot hfit

/-! ### Two trees -/

theorem letters_nulFree (n : Nat) : (0 : UInt8) ∉ List.replicate n 97 := by
  intro h
  cases List.eq_of_mem_replicate h

/-- So many times `a`. -/
def letters (n : Nat) : CString := ⟨List.replicate n 97, letters_nulFree n⟩

theorem letters_length (n : Nat) : (letters n).bytes.length = n :=
  List.length_replicate

theorem letters_nonempty {n : Nat} (hpos : 0 < n) : (letters n).bytes ≠ [] := by
  intro hnil
  have hlength := letters_length n
  rw [hnil, List.length_nil] at hlength
  omega

theorem letters_noSlash (n : Nat) : (47 : UInt8) ∉ (letters n).bytes := by
  intro h
  cases List.eq_of_mem_replicate h

theorem letters_noDot (n : Nat) : (46 : UInt8) ∉ (letters n).bytes := by
  intro h
  cases List.eq_of_mem_replicate h

theorem letters_notDot (n : Nat) : letters n ≠ dot := by
  intro heq
  have hnoDot := letters_noDot n
  rw [heq] at hnoDot
  exact hnoDot List.mem_cons_self

theorem letters_notDotDot (n : Nat) : letters n ≠ dotDot := by
  intro heq
  have hnoDot := letters_noDot n
  rw [heq] at hnoDot
  exact hnoDot List.mem_cons_self

theorem letters_short {n : Nat} (hle : n ≤ 255) :
    (letters n).bytes.length ≤ 255 := by
  rw [letters_length]
  exact hle

/-- A file name of that length. -/
def lettersName (n : Nat) (hpos : 0 < n) (hle : n ≤ 255) : FileName :=
  ⟨letters n, letters_nonempty hpos, letters_noSlash n, letters_notDot n,
    letters_notDotDot n, letters_short hle⟩

theorem nameMax_pos : 0 < 255 := by
  decide

theorem one_le_nameMax : 1 ≤ 255 := by
  decide

theorem two_le_nameMax : 2 ≤ 255 := by
  decide

/-- `a` -/
def shortName : FileName := lettersName 1 Nat.one_pos one_le_nameMax

/-- `aa` -/
def directoryName : FileName := lettersName 2 Nat.two_pos two_le_nameMax

/-- A root with a directory `aa` and, behind it, a regular file `a`; there is
another `a` in the directory. -/
def twoLevels : FileSystem where
  root := .dot (.child directoryName
    (.directory (.dotDot (.child shortName .regular (.dot .nil))))
    (.child shortName .regular (.dotDot .nil)))
  workingDir := []

theorem twoLevels_distinct : twoLevels.root.Distinct :=
  ⟨rfl, ⟨rfl, trivial, trivial⟩, rfl, trivial, trivial⟩

theorem twoLevels_fit :
    Fit (nodeStrings slash (.directory twoLevels.root)) := by
  unfold Fit
  decide

theorem twoLevels_located :
    twoLevels.locate slash = some ⟨.directory twoLevels.root, []⟩ :=
  rfl

/-- Both files are found, the one in the directory first. -/
theorem getFileNamesInDir_exact_twoLevels :
    ∃ s', getFileNamesInDir .quiet twoLevels 3 (slash.image.map some)
        Heap.empty = .ok s' ∧
      s'.arr.map (fun block => loadString block.cells 0) =
        [.ok (entryPath (entryPath slash (letters 2)) (letters 1)),
          .ok (entryPath slash (letters 1))] :=
  (getFileNamesInDir_exact twoLevels_located twoLevels_distinct rfl Heap.empty
    twoLevels_fit (by decide)).1

theorem searchWorkingDir_inBounds_iff_twoLevels :
    Fit (nodeStrings twoLevels.workingPath (.directory twoLevels.root)) ∧
    ∀ env fuel heap, searchWorkingDir env twoLevels fuel heap ≠
      .error (.fault .outOfBounds) :=
  ⟨twoLevels_fit, (searchWorkingDir_inBounds_iff twoLevels_located
    twoLevels_distinct (by decide)).mpr twoLevels_fit⟩

theorem nameMax_le : 255 ≤ 255 :=
  Nat.le_refl 255

/-- A root with one regular file, of the longest name there is. -/
def longNamed : FileSystem where
  root := .child (lettersName 255 nameMax_pos nameMax_le) .regular .nil
  workingDir := []

theorem longNamed_located :
    longNamed.locate slash = some ⟨.directory longNamed.root, []⟩ :=
  rfl

/-- The root path is one byte long, and `fileName` is left. -/
theorem searchWorkingDir_longNamed :
    longNamed.workingPath.bytes.length = 1 ∧
    searchWorkingDir .quiet longNamed 2 Heap.empty =
      .error (.fault .outOfBounds) := by
  have hroot : longNamed.workingPath.bytes.length = 1 := rfl
  have hlong : ¬ Fit (nodeStrings slash (.directory longNamed.root)) := by
    intro hfit
    have hentry := hfit (entryPath slash (letters 255))
      (List.mem_cons_of_mem _ List.mem_cons_self)
    rw [entryPath_bytes, List.length_append, List.length_cons,
      letters_length] at hentry
    exact absurd hentry (by decide)
  have hcells : loadString (getcwd longNamed) 0 = .ok slash :=
    getcwd_load (Nat.lt_of_le_of_lt (Nat.le_of_eq hroot) (by decide))
  have hdepth : longNamed.root.depth < 2 := by decide
  refine ⟨hroot, ?_⟩
  rcases getFileNamesInDir_quiet longNamed_located ⟨rfl, trivial, trivial⟩
    hcells Heap.empty hdepth with ⟨hfit, -⟩ | ⟨-, hoverflow⟩
  · exact absurd hfit hlong
  · exact hoverflow

end Search

end OsLabs.Lab1.FileNames
