import OsLabs.Lab1.FileNames

/-!
# Walking a directory tree

`duplicates.c` has one function that goes through a directory and all that is
below it, and `duplicates_backup.c` has two.  They put their paths together in
the same way, and differ in what they do with a regular file, in what they
give to the call for a directory, and in what they make of its result: a
`Visitor`.

`walkRec_ends`: where every path fits, a walk computes `gather`, a fold of the
tree, unless it is given up because `opendir` or `stat` fails.
-/

namespace OsLabs.Lab1.TreeWalk

open OsLabs.Posix OsLabs.Posix.FileTree
open OsLabs.Lab1.FileNames

/-! ## The source -/

/-- What a walk does: with `fileName` when it is the path of a regular file,
and before and after the call for a directory. -/
structure Visitor (ε σ : Type) where
  visit : List (Option UInt8) → σ → Except ε σ
  enter : σ → σ
  leave : σ → σ → Except ε σ

/-- How a walk ends other than by returning: as the search for file names
does, or in the visitor. -/
inductive WalkStop (ε : Type) where
  | stop (s : Stop)
  | visit (e : ε)

/-- The process, of which a walk uses the buffers and the counts of the calls,
and what it has computed. -/
structure Walk (σ : Type) where
  search : Search
  result : σ

section

variable {ε σ : Type} (env : Environment) (fs : FileSystem)
  (visitor : Visitor ε σ)

/-- A step that is not the visitor's. -/
def step {α : Type} (x : Except Stop α) : Except (WalkStop ε) α :=
  x.mapError .stop

@[simp] theorem step_ok {α : Type} (a : α) :
    step (ε := ε) (.ok a) = .ok a := rfl

/-- What is done with an entry once its path is in `fileName`. -/
def handleEntry (recurse : Buffer → Walk σ → Except (WalkStop ε) (Walk σ))
    (level : Nat) (name : CString) (w : Walk σ) :
    Except (WalkStop ε) (Walk σ) := do
  let path ← step (orFault (loadString (w.search.buffers (.fileName level)) 0))
  match statCall env fs path w.search with
  | (none, _) => throw (.stop .exited)
  | (some .regular, s) =>
    let result ← (visitor.visit (s.buffers (.fileName level))
      w.result).mapError .visit
    return ⟨s, result⟩
  | (some (.directory _), s) =>
    if name ≠ dot ∧ name ≠ dotDot then
      let below ← recurse (.fileName level) ⟨s, visitor.enter w.result⟩
      let result ← (visitor.leave w.result below.result).mapError .visit
      return ⟨below.search, result⟩
    else return ⟨s, w.result⟩
  | (some .special, s) => return ⟨s, w.result⟩

/-- The loop over the entries of a directory. -/
def walkEntries (recurse : Buffer → Walk σ → Except (WalkStop ε) (Walk σ))
    (level : Nat) : List CString → Walk σ → Except (WalkStop ε) (Walk σ)
  | [], w => return w
  | name :: names, w => do
    let s ← step (copyInto (.fileName level) (.fileNameBackup level) w.search)
    let s ← step (appendTo (.fileName level) name s)
    let w ← handleEntry env fs visitor recurse level name ⟨s, w.result⟩
    walkEntries recurse level names w

/-- The call for a directory. -/
def walkRec : Nat → Nat → Buffer → Walk σ → Except (WalkStop ε) (Walk σ)
  | 0, _, _, _ => throw (.stop (.fault .outOfFuel))
  | fuel + 1, level, dirPath, w => do
    let path ← step (orFault (loadString (w.search.buffers dirPath) 0))
    match opendirCall env fs path w.search with
    | (none, _) => throw (.stop .exited)
    | (some names, s) =>
      let s ← step (copyInto (.fileNameBackup level) dirPath (s.enter level))
      let s ← step (appendTo (.fileNameBackup level) slash s)
      walkEntries env fs visitor (walkRec fuel (level + 1)) level names
        ⟨s, w.result⟩

/-- The outermost call, with a pointer to these bytes. -/
def walk (fuel : Nat) (dirName : List (Option UInt8)) (start : σ) :
    Except (WalkStop ε) σ := do
  let w ← walkRec env fs visitor fuel 0 .dirName
    ⟨⟨fun b => if b = .dirName then dirName else [], [], Heap.empty, 0, 0⟩,
      start⟩
  return w.result

end

/-! ## Folding a tree -/

section

variable {ε σ : Type} (visitor : Visitor ε σ)
  (file : CString → σ → Except ε σ)

mutual

/-- What a visitor that does `file` with every regular file makes of a node
that has a path. -/
def gatherNode (path : CString) : Node → σ → Except ε σ
  | .regular, result => file path result
  | .special, result => .ok result
  | .directory entries, result => do
    visitor.leave result (← gather path entries (visitor.enter result))

/-- What it makes of the directory with path `dir`. -/
def gather (dir : CString) : Entries → σ → Except ε σ
  | .nil, result => .ok result
  | .dot rest, result => gather dir rest result
  | .dotDot rest, result => gather dir rest result
  | .child name node rest, result => do
    gather dir rest (← gatherNode (entryPath dir name.text) node result)

end

/-- A visitor that takes its result into the call for a directory, and takes
over the result of that call. -/
def Visitor.Threads : Prop :=
  visitor.enter = id ∧ ∀ before after, visitor.leave before after = .ok after

mutual

/-- Such a visitor does one regular file after the other. -/
theorem gatherNode_threads (h : visitor.Threads) : (node : Node) →
    (path : CString) → (result : σ) →
    gatherNode visitor file path node result =
      (node.filePaths path).foldlM (fun result path => file path result) result
  | .regular, path, result => by
      rw [gatherNode, Node.filePaths, List.foldlM_cons]
      exact (bind_pure _).symm
  | .special, _, _ => rfl
  | .directory entries, path, result => by
      rw [gatherNode, Node.filePaths, h.1, id, gather_threads h]
      simp only [h.2]
      exact bind_pure _

theorem gather_threads (h : visitor.Threads) : (entries : Entries) →
    (dir : CString) → (result : σ) →
    gather visitor file dir entries result =
      (entries.filePaths dir).foldlM (fun result path => file path result)
        result
  | .nil, _, _ => rfl
  | .dot rest, dir, result => gather_threads h rest dir result
  | .dotDot rest, dir, result => gather_threads h rest dir result
  | .child name node rest, dir, result => by
      rw [gather, Entries.filePaths, List.foldlM_append, gatherNode_threads h]
      exact bind_congr fun _ => gather_threads h rest dir _

end

/-- The visitor looks at nothing but the string in `fileName`. -/
def Reads : Prop :=
  ∀ path cells result, HoldsString maxDirBufferSize path cells →
    visitor.visit cells result = file path result

end

mutual

/-- The paths of the regular files are among the strings put together. -/
theorem fit_filePaths_node : (node : Node) → (path : CString) →
    path.bytes.length < maxDirBufferSize → Fit (nodeStrings path node) →
    ∀ file ∈ node.filePaths path, file.bytes.length < maxDirBufferSize
  | .regular, path, hpath, _ => fun file hfile => by
      rw [List.mem_singleton.mp hfile]
      exact hpath
  | .special, _, _, _ => fun file hfile => absurd hfile List.not_mem_nil
  | .directory entries, path, _, hfit =>
      fit_filePaths entries path (fit_cons.mp hfit).2

theorem fit_filePaths : (entries : Entries) → (dir : CString) →
    Fit (entryStrings dir entries) →
    ∀ file ∈ entries.filePaths dir, file.bytes.length < maxDirBufferSize
  | .nil, _, _ => fun file hfile => absurd hfile List.not_mem_nil
  | .dot rest, dir, hfit => fit_filePaths rest dir (fit_cons.mp hfit).2
  | .dotDot rest, dir, hfit => fit_filePaths rest dir (fit_cons.mp hfit).2
  | .child name node rest, dir, hfit => fun file hfile => by
      obtain ⟨hentry, hfits⟩ := fit_cons.mp hfit
      obtain ⟨hnode, hrest⟩ := fit_append.mp hfits
      rcases List.mem_append.mp hfile with hmem | hmem
      · exact fit_filePaths_node node _ hentry hnode file hmem
      · exact fit_filePaths rest dir hrest file hmem

end

/-! ## How a walk ends -/

/-- The ends of a walk that is to compute `expected`. -/
inductive WalkEnds {ε σ : Type} (env : Environment) (expected : Except ε σ)
    (post : Search → Prop) : Except (WalkStop ε) (Walk σ) → Prop where
  | exited : env.Fails → WalkEnds env expected post (.error (.stop .exited))
  | refused {e : ε} :
      expected = .error e → WalkEnds env expected post (.error (.visit e))
  | returned {s : Search} {result : σ} : expected = .ok result → post s →
      WalkEnds env expected post (.ok ⟨s, result⟩)

section WalkEnds

variable {ε σ : Type} {env : Environment} {expected : Except ε σ}
  {post post' : Search → Prop} {x : Except (WalkStop ε) (Walk σ)}

theorem WalkEnds.weaken (h : WalkEnds env expected post x)
    (hpost : ∀ s, post s → post' s) : WalkEnds env expected post' x := by
  cases h with
  | exited hfails => exact .exited hfails
  | refused hexpected => exact .refused hexpected
  | returned hexpected hs => exact .returned hexpected (hpost _ hs)

/-- One step after the other. -/
theorem WalkEnds.bind {next : σ → Except ε σ}
    {f : Walk σ → Except (WalkStop ε) (Walk σ)}
    (h : WalkEnds env expected post x)
    (hf : ∀ s result, post s →
      WalkEnds env (next result) post' (f ⟨s, result⟩)) :
    WalkEnds env (expected >>= next) post' (x >>= f) := by
  cases h with
  | exited hfails => exact .exited hfails
  | refused hexpected =>
      rw [hexpected]
      exact .refused rfl
  | returned hexpected hs =>
      rw [hexpected]
      exact hf _ _ hs

/-- A step of the visitor. -/
theorem walkEnds_visit (visited : Except ε σ) {s : Search} (hs : post s) :
    WalkEnds env visited post (do
      let result ← visited.mapError .visit
      return ⟨s, result⟩) := by
  cases visited with
  | error e => exact .refused rfl
  | ok result => exact .returned rfl hs

/-- A step that succeeds where everything fits. -/
theorem ok_of_ends {fits : Prop} {y : Except Stop Search}
    (h : Ends .quiet False fits post y) (hfits : fits) :
    ∃ s, y = .ok s ∧ post s := by
  cases h with
  | exited hfails => exact absurd hfails not_quiet_fails
  | refused hfails => exact absurd hfails not_quiet_fails
  | outOfFuel hdeep => exact hdeep.elim
  | overflow hnot => exact absurd hfits hnot
  | returned _ hs => exact ⟨_, rfl, hs⟩

/-- A path is put together in two such steps. -/
theorem step_bind_ok {first : Except Stop Search}
    {second : Search → Except Stop Search} {s : Search}
    (h : (first >>= second) = .ok s)
    (f : Search → Except (WalkStop ε) (Walk σ)) :
    (step first >>= fun s₁ => step (second s₁) >>= f) = f s := by
  obtain ⟨s₁, rfl, hsecond⟩ := except_bind_eq_ok.mp h
  rw [step_ok, except_ok_bind, hsecond, step_ok, except_ok_bind]

end WalkEnds

/-! ## One entry -/

section Entry

variable {ε σ : Type} {env : Environment} {fs : FileSystem}
  {visitor : Visitor ε σ} {file : CString → σ → Except ε σ}
  {recurse : Buffer → Walk σ → Except (WalkStop ε) (Walk σ)}
  {s : Search} {dir path name : CString} {result : σ} {level fuel : Nat}
  {node : Node} {entries : Entries} {above : List Entries}

/-- What a call for a directory below `level` is to do. -/
def Descends (env : Environment) (visitor : Visitor ε σ)
    (file : CString → σ → Except ε σ) (level : Nat) (path : CString)
    (entries : Entries)
    (recurse : Buffer → Walk σ → Except (WalkStop ε) (Walk σ)) : Prop :=
  ∀ s result, HoldsString maxDirBufferSize path (s.buffers (.fileName level)) →
    WalkEnds env (gather visitor file path entries result)
      (Intact (2 * level + 3) s) (recurse (.fileName level) ⟨s, result⟩)

/-- `.` and `..` are looked at only. -/
theorem handleEntry_dots
    (hheld : HoldsString maxDirBufferSize path (s.buffers (.fileName level)))
    (hlocate : fs.locate path = some ⟨.directory entries, above⟩)
    (hname : name = dot ∨ name = dotDot) :
    WalkEnds env (.ok result) (Intact (2 * level + 3) s)
      (handleEntry env fs visitor recurse level name ⟨s, result⟩) := by
  have hskip : ¬ (name ≠ dot ∧ name ≠ dotDot) := by
    rintro ⟨hdot, hdotDot⟩
    exact hname.elim hdot hdotDot
  unfold handleEntry
  rw [hheld.load, orFault_ok, step_ok, except_ok_bind]
  rcases statCall_located env hlocate s with ⟨hfails, hstat⟩ | hstat
  · rw [hstat]
    exact .exited (Or.inr (Or.inl ⟨_, hfails⟩))
  · rw [hstat]
    show WalkEnds env _ _ (if _ then _ else _)
    rw [if_neg hskip]
    exact .returned rfl (Intact.of_eq rfl)

/-- Any other entry is visited or walked through. -/
theorem handleEntry_child {name : FileName} (hreads : Reads visitor file)
    (hheld : HoldsString maxDirBufferSize path (s.buffers (.fileName level)))
    (hlocate : fs.locate path = some ⟨node, above⟩)
    (hdescends : ∀ entries, node = .directory entries →
      Descends env visitor file level path entries recurse) :
    WalkEnds env (gatherNode visitor file path node result)
      (Intact (2 * level + 3) s)
      (handleEntry env fs visitor recurse level name.text ⟨s, result⟩) := by
  unfold handleEntry
  rw [hheld.load, orFault_ok, step_ok, except_ok_bind]
  rcases statCall_located env hlocate s with ⟨hfails, hstat⟩ | hstat
  · rw [hstat]
    exact .exited (Or.inr (Or.inl ⟨_, hfails⟩))
  · rw [hstat]
    cases node with
    | regular =>
        rw [gatherNode, ← hreads path _ result hheld]
        exact walkEnds_visit _ (Intact.of_eq rfl)
    | special => exact .returned rfl (Intact.of_eq rfl)
    | directory entries =>
        show WalkEnds env _ _ (if _ then _ else _)
        rw [if_pos ⟨name.notDot, name.notDotDot⟩, gatherNode]
        have hbelow := hdescends entries rfl { s with stats := s.stats + 1 }
          (visitor.enter result) hheld
        exact hbelow.bind fun s' below hintact => walkEnds_visit _ hintact

/-- One entry and the rest of the loop. -/
theorem walkEntries_cons {names : List CString} {first : Except ε σ}
    {rest : σ → Except ε σ}
    (hfit : (entryPath dir name).bytes.length < maxDirBufferSize)
    (hhandle : ∀ s', HoldsString maxDirBufferSize (entryPath dir name)
        (s'.buffers (.fileName level)) →
      WalkEnds env first (Intact (2 * level + 3) s')
        (handleEntry env fs visitor recurse level name ⟨s', result⟩))
    (hrest : ∀ s' result', Ready level dir s' →
      WalkEnds env (rest result') (Intact (2 * level + 2) s')
        (walkEntries env fs visitor recurse level names ⟨s', result'⟩))
    (hready : Ready level dir s) :
    WalkEnds env (first >>= rest) (Intact (2 * level + 2) s)
      (walkEntries env fs visitor recurse level (name :: names)
        ⟨s, result⟩) := by
  obtain ⟨built, hbuild, hbuilt⟩ := ok_of_ends (buildPath_ends hready name) hfit
  have hkept : Intact (2 * level + 2) s built := by
    obtain ⟨copied, hcopy, happend⟩ := except_bind_eq_ok.mp hbuild
    exact (copyInto_intact hcopy (Nat.le_refl _)).trans
      (appendTo_intact happend (Nat.le_refl _))
  rw [walkEntries]
  simp only
  rw [step_bind_ok hbuild]
  refine (hhandle built hbuilt.held).bind fun s' result' hintact => ?_
  refine (hrest s' result' (hbuilt.ready.intact hintact (Nat.le_refl _))).weaken
    fun s'' hintact' => ?_
  exact (hkept.trans (hintact.mono (Nat.le_succ _))).trans hintact'

end Entry

/-! ## The loop and the calls -/

section Calls

variable {ε σ : Type} {env : Environment} {fs : FileSystem}
  {visitor : Visitor ε σ} {file : CString → σ → Except ε σ}
  {recurse : Buffer → Walk σ → Except (WalkStop ε) (Walk σ)}
  {dir : CString} {level fuel : Nat} {entries : Entries}
  {above : List Entries}

/-- The files that the entries stand for can be found, and the calls for the
directories among them do what they are to do. -/
structure Walkable (env : Environment) (fs : FileSystem)
    (visitor : Visitor ε σ) (file : CString → σ → Except ε σ) (level : Nat)
    (recurse : Buffer → Walk σ → Except (WalkStop ε) (Walk σ))
    (dir : CString) (entries : Entries) : Prop where
  located : ∀ name node, entries.Has name node →
    ∃ above, fs.locate (entryPath dir name.text) = some ⟨node, above⟩
  descends : ∀ name below, entries.Has name (.directory below) →
    Fit (nodeStrings (entryPath dir name.text) (.directory below)) →
    Descends env visitor file level (entryPath dir name.text) below recurse

theorem Walkable.mono {rest : Entries}
    (h : Walkable env fs visitor file level recurse dir entries)
    (hsub : ∀ name node, rest.Has name node → entries.Has name node) :
    Walkable env fs visitor file level recurse dir rest :=
  ⟨fun name node hhas => h.located name node (hsub name node hhas),
    fun name below hhas => h.descends name below (hsub name _ hhas)⟩

/-- The whole loop, by recursion over the entries. -/
theorem walkEntries_ends (hreads : Reads visitor file)
    (hlocate : fs.locate dir = some ⟨.directory entries, above⟩) :
    (rest : Entries) → Walkable env fs visitor file level recurse dir rest →
    Fit (entryStrings dir rest) → ∀ s result, Ready level dir s →
      WalkEnds env (gather visitor file dir rest result)
        (Intact (2 * level + 2) s)
        (walkEntries env fs visitor recurse level rest.names ⟨s, result⟩)
  | .nil, _, _, s, result, _ => .returned rfl (Intact.refl _ _)
  | .dot rest, hwalkable, hfit, s, result, hready => by
      obtain ⟨hentry, hfits⟩ := fit_cons.mp hfit
      have hrest := walkEntries_ends hreads hlocate rest
        (hwalkable.mono fun _ _ => .dot) hfits
      exact walkEntries_cons hentry
        (fun s' hheld => handleEntry_dots hheld (locate_dot hlocate)
          (Or.inl rfl)) hrest hready
  | .dotDot rest, hwalkable, hfit, s, result, hready => by
      obtain ⟨parent, above', hparent⟩ := locate_dotDot hlocate
      obtain ⟨hentry, hfits⟩ := fit_cons.mp hfit
      have hrest := walkEntries_ends hreads hlocate rest
        (hwalkable.mono fun _ _ => .dotDot) hfits
      exact walkEntries_cons hentry
        (fun s' hheld => handleEntry_dots hheld hparent (Or.inr rfl)) hrest
        hready
  | .child name node rest, hwalkable, hfit, s, result, hready => by
      obtain ⟨above', hchild⟩ := hwalkable.located name node .here
      obtain ⟨hentry, hfits⟩ := fit_cons.mp hfit
      obtain ⟨hnode, hfits⟩ := fit_append.mp hfits
      have hrest := walkEntries_ends hreads hlocate rest
        (hwalkable.mono fun _ _ => .child) hfits
      refine walkEntries_cons hentry
        (fun s' hheld => handleEntry_child hreads hheld hchild ?_) hrest hready
      rintro below rfl
      exact hwalkable.descends name below .here hnode

/-- The common part of the paths of the entries is put together. -/
theorem enter_ready {dirPath : Buffer} {s : Search}
    (hload : loadString (s.buffers dirPath) 0 = .ok dir)
    (hbelow : dirPath.height < 2 * level + 1)
    (hfit : (dir.append slash).bytes.length < maxDirBufferSize) :
    ∃ prepared, (copyInto (.fileNameBackup level) dirPath (s.enter level) >>=
        appendTo (.fileNameBackup level) slash) = .ok prepared ∧
      Ready level dir prepared ∧ Intact (2 * level + 1) s prepared := by
  obtain ⟨prepared, hprepare, -, hready⟩ :=
    ok_of_ends (enter_ends hload hbelow) hfit
  obtain ⟨copied, hcopy, happend⟩ := except_bind_eq_ok.mp hprepare
  refine ⟨prepared, hprepare, hready, enter_intact.trans ?_⟩
  exact (copyInto_intact hcopy (Nat.le_refl _)).trans
    (appendTo_intact happend (Nat.le_refl _))

/-- **A call of a walk** for a directory below which every path fits computes
the fold of its entries, unless a call of the environment fails.  By induction
on the fuel. -/
theorem walkRec_ends (hreads : Reads visitor file) {dirPath : Buffer}
    {s : Search} (hload : loadString (s.buffers dirPath) 0 = .ok dir)
    (hbelow : dirPath.height < 2 * level + 1)
    (hlocate : fs.locate dir = some ⟨.directory entries, above⟩)
    (hdistinct : entries.Distinct)
    (hfit : Fit (nodeStrings dir (.directory entries)))
    (hfuel : entries.depth < fuel) (result : σ) :
    WalkEnds env (gather visitor file dir entries result)
      (Intact (2 * level + 1) s)
      (walkRec env fs visitor fuel level dirPath ⟨s, result⟩) := by
  induction fuel generalizing level dirPath dir entries above s result with
  | zero => exact absurd hfuel (Nat.not_lt_zero _)
  | succ fuel ih =>
      obtain ⟨hslash, hentries⟩ := fit_cons.mp hfit
      have hwalkable : Walkable env fs visitor file level
          (walkRec env fs visitor fuel (level + 1)) dir entries := by
        constructor
        · intro name node hhas
          exact ⟨_, locate_child hlocate (hhas.find_eq hdistinct)⟩
        · intro name below hhas hfits s' result' hheld
          exact ih hheld.load
            (show 2 * level + 2 < 2 * (level + 1) + 1 by omega)
            (locate_child hlocate (hhas.find_eq hdistinct))
            (hhas.distinct hdistinct) hfits
            (Nat.lt_of_lt_of_le hhas.depth_le (Nat.le_of_lt_succ hfuel)) result'
      rw [walkRec, hload, orFault_ok, step_ok, except_ok_bind]
      rcases opendirCall_located env hlocate s with
        ⟨hfails, hopendir⟩ | hopendir
      · simp only [hopendir]
        exact .exited (Or.inl ⟨_, hfails⟩)
      · obtain ⟨prepared, hprepare, hready, hintact⟩ :=
          enter_ready (s := { s with opendirs := s.opendirs + 1 }) hload hbelow
            hslash
        simp only [hopendir]
        rw [step_bind_ok hprepare]
        refine (walkEntries_ends hreads hlocate entries hwalkable hentries
          prepared result hready).weaken fun s' hrest => ?_
        exact hintact.trans (hrest.mono (Nat.le_succ _))

/-- When every call succeeds, the whole walk computes the fold. -/
theorem walk_quiet (hreads : Reads visitor file)
    (hlocate : fs.locate dir = some ⟨.directory entries, above⟩)
    (hdistinct : entries.Distinct)
    (hfit : Fit (nodeStrings dir (.directory entries)))
    {cells : List (Option UInt8)} (hcells : loadString cells 0 = .ok dir)
    (hfuel : entries.depth < fuel) (start : σ) :
    walk .quiet fs visitor fuel cells start =
      (gather visitor file dir entries start).mapError .visit := by
  have hends : WalkEnds .quiet _ _ (walkRec .quiet fs visitor fuel 0 .dirName
      ⟨⟨fun b => if b = .dirName then cells else [], [], Heap.empty, 0, 0⟩,
        start⟩) :=
    walkRec_ends hreads hcells Nat.one_pos hlocate hdistinct hfit hfuel start
  unfold walk
  generalize walkRec .quiet fs visitor fuel 0 .dirName _ = ended at hends ⊢
  cases hends with
  | exited hfails => exact absurd hfails not_quiet_fails
  | refused hexpected =>
      rw [hexpected]
      rfl
  | returned hexpected _ =>
      rw [hexpected]
      rfl

end Calls

end OsLabs.Lab1.TreeWalk
