import OsLabs.Iwish.PipelineJob
import OsLabs.Iwish.Script

/-!
# What comes out of a pipeline

When the programs that a line names end on what they are given, so does the
job, whatever the order of the steps, the capacity of the pipes, and whether a
program reads all of its input: `pipeline_flows` says what each of them will
have written, and what the files of the line then hold.  The first two programs
and the last one do what their places in the line say (`linePlan`), and the
others are never executed.

The line must not write to a file that it reads (`FilesApart`).  A file has one
name; other processes do not write to the files of the line, and do not take
from the standard input that the line inherits; outside the pipes of the line
no read and no write has to wait.
-/

namespace OsLabs.Iwish.PipelineFlow

open OsLabs.Posix
open OsLabs.Posix.Filters
open OsLabs.Iwish.ParserTokens
open OsLabs.Iwish.Grammar
open OsLabs.Iwish.ParseTree
open OsLabs.Iwish.Arguments
open OsLabs.Iwish.Interpreter
open OsLabs.Iwish.SpawnLoop
open OsLabs.Iwish.PipelineWiring
open OsLabs.Iwish.Redirections (askedFor AllOpen allOpen_succ lastFile
  not_allOpen_of_first)
open OsLabs.Iwish.PipelineStages
open OsLabs.Iwish.PipelineJob
open OsLabs.Iwish.Shell
open OsLabs.Iwish.Script

/-! ## A job that has stopped -/

section Stopped

variable {σ α : Type} {programs : Programs σ}
  {inherited : α → List UInt8} {openFails : Nat → Nat → Bool}
  {heap : Heap} {initial : FdTable (Description α)} {n capacity : Nat}
  {endings : List (Ending α)} {s : JobState σ α} {k : Nat}
  {stage : Stage σ α}

/-- A job handler that has started all stages has no end of a pipe open. -/
theorem handler_closed (hinherited : Inherited initial) {started : Nat}
    {t : SpawnState α} (h : HandlerOk openFails heap initial n endings started
      (.atHead [] t)) (pipe : Nat) :
    ¬ Refers t.table (.readEnd pipe) ∧ ¬ Refers t.table (.writeEnd pipe) := by
  obtain ⟨-, -, hhead, hcarried, -⟩ := h
  have habsent : t.incomingPipe = .absent := by
    rcases hcarried with ⟨habsent, -⟩ | ⟨hne, -⟩
    · exact habsent
    · exact absurd rfl hne
  have hkept : ∀ fd d, t.table.entry fd = some d → ∃ x, d = .inherited x := by
    intro fd d hd
    rcases hhead.entries fd with hsame | ⟨hread, -⟩
    · exact hinherited fd d (hsame ▸ hd)
    · rw [habsent] at hread
      simp only [PipePair.absent] at hread
      omega
  constructor
  · rintro ⟨fd, hd⟩
    obtain ⟨x, hx⟩ := hkept fd _ hd
    cases hx
  · rintro ⟨fd, hd⟩
    obtain ⟨x, hx⟩ := hkept fd _ hd
    cases hx

/-- A job in which nothing can happen. -/
def Stuck (programs : Programs σ) (capacity : Nat)
    (inherited : α → List UInt8) (openFails : Nat → Nat → Bool)
    (heap : Heap) (s : JobState σ α) : Prop :=
  ∀ s', ¬ JobStep programs capacity inherited openFails heap s s'

variable (hinherited : Inherited initial) (hattached : AllAttached n endings)
  (hcapacity : 0 < capacity)
  (h : JobInv programs openFails heap initial n endings s)
  (hstuck : Stuck programs capacity inherited openFails heap s)

include h hstuck in
/-- The job handler has started everything. -/
theorem stuck_handler :
    s.stages.length = n ∧ ∃ t, s.handler = .atHead [] t := by
  obtain ⟨handler, stages, pipe, file⟩ := s
  have hhandler := h.handler
  cases handler with
  | atHead commands t =>
      cases commands with
      | nil => exact ⟨hhandler.1, t, rfl⟩
      | cons node next => exact absurd (.fork stages pipe file) (hstuck _)
  | forked next t => exact absurd (.close stages pipe file) (hstuck _)

include hstuck in
/-- No child is still to prepare, and no program can go on. -/
theorem stuck_stage (hstage : s.stages[k]? = some stage) :
    (∀ list t, stage.life ≠ .forked list t) ∧ ∀ stage' pipe file,
      ¬ StageActs programs.act inherited capacity s stage stage' pipe file :=
  ⟨fun _ _ hlife => hstuck _ (.prepare hstage hlife rfl),
    fun _ _ _ hacts => hstuck _ (.act hstage hacts)⟩

include hstuck in
/-- There is always something to read from what is not a pipe, or its end. -/
theorem stuck_not_reading_outside {state : σ} {next : Option UInt8 → σ}
    {d : Description α} (hstage : s.stages[k]? = some stage)
    (hlife : stage.life = .running state)
    (hstdin : stage.table.entry stdinFd = some d) (houtside : Outside d) :
    programs.act state ≠ .read next := by
  intro hact
  have hcannot := (stuck_stage hstuck hstage).2
  cases hbyte : (s.file.contents inherited d)[stage.taken]? with
  | none => exact hcannot _ _ _ (.readAll hlife hact hstdin houtside hbyte)
  | some byte => exact hcannot _ _ _ (.read hlife hact hstdin houtside hbyte)

include hinherited h hstuck in
/-- Who has an end of a pipe open is a stage that runs. -/
theorem stuck_open (hattached : AllAttached n endings) {d : Description α}
    {pipe : Nat} (hd : d = .readEnd pipe ∨ d = .writeEnd pipe)
    (hopen : s.Open d) : ∃ j stage state, s.stages[j]? = some stage ∧
      stage.life = .running state ∧ StageHolds j d := by
  obtain ⟨-, t, hcase⟩ := stuck_handler h hstuck
  have hhandler := h.handler
  rw [hcase] at hhandler
  obtain ⟨hread, hwrite⟩ := handler_closed hinherited hhandler pipe
  rcases hopen with hrefers | ⟨stage, hmem, hlive, fd, hentry⟩
  · rw [hcase] at hrefers
    rcases hd with rfl | rfl
    · exact absurd hrefers hread
    · exact absurd hrefers hwrite
  · obtain ⟨j, hstage⟩ := List.mem_iff_getElem?.mp hmem
    have hforked := (stuck_stage hstuck hstage).1
    unfold Stage.Live at hlive
    cases hlife : stage.life with
    | forked list t => exact absurd hlife (hforked list t)
    | running state =>
        obtain ⟨hends, -⟩ := h.running (fun _ => []) hattached hstage hlife
        exact ⟨j, stage, state, hstage, hlife, hends.holds fd d hentry⟩
    | exited =>
        rw [hlife] at hlive
        exact hlive.elim
    | killed =>
        rw [hlife] at hlive
        exact hlive.elim

include hinherited hattached hcapacity h hstuck in
/-- No program waits for something to read: the one in front would wait, too,
as it has room to write, and so would all the ones in front of it. -/
theorem stuck_not_reading {state : σ} {next : Option UInt8 → σ}
    (hstage : s.stages[k]? = some stage) (hlife : stage.life = .running state) :
    programs.act state ≠ .read next := by
  intro hact
  induction k generalizing stage state next with
  | zero =>
      obtain ⟨hends, -⟩ := h.running (fun _ => []) hattached hstage hlife
      rcases hends.stdin_cases fun _ => [] with
        ⟨d, hd, houtside, -⟩ | ⟨j, hj, -, -⟩
      · exact stuck_not_reading_outside hstuck hstage hlife hd houtside hact
      · cases hj
  | succ k ih =>
      obtain ⟨hends, -⟩ := h.running (fun _ => []) hattached hstage hlife
      have hcannot := (stuck_stage hstuck hstage).2
      rcases hends.stdin_cases fun _ => [] with
        ⟨d, hd, houtside, -⟩ | ⟨j, hj, hread, -⟩
      · exact stuck_not_reading_outside hstuck hstage hlife hd houtside hact
      · obtain rfl : k = j := Nat.succ.inj hj
        have hempty : s.pipe k = [] := by
          cases hpipe : s.pipe k with
          | nil => rfl
          | cons byte rest =>
              exact (hcannot _ _ _ (.readPipe hlife hact hread hpipe)).elim
        by_cases hopen : s.Open (.writeEnd k)
        · obtain ⟨i, writer, state', hwriter, hlife', hholds⟩ :=
            stuck_open hinherited h hstuck hattached (Or.inr rfl) hopen
          obtain rfl : k = i := hholds
          have hcannot' := (stuck_stage hstuck hwriter).2
          obtain ⟨hends', -⟩ := h.running (fun _ => []) hattached hwriter hlife'
          cases hact' : programs.act state' with
          | read next' => exact ih hwriter hlife' hact'
          | exit code => exact hcannot' _ _ _ (.exit hlife' hact')
          | write byte next' =>
              rcases hends'.stdout_cases with ⟨d, hd, houtside, -⟩ |
                ⟨hwrite, -, -⟩
              · exact hcannot' _ _ _ (.write hlife' hact' hd houtside)
              · have hreader : s.Open (.readEnd k) :=
                  open_of_live hstage (live_of_running hlife)
                    ⟨stdinFd, hread⟩
                apply hcannot' _ _ _ (.writePipe hlife' hact' hwrite hreader ?_)
                rw [hempty]
                exact hcapacity
        · exact hcannot _ _ _ (.readEnd hlife hact hread hempty hopen)

include hinherited hattached hcapacity h hstuck in
/-- No program runs: it could only wait for room to write, and the one behind
it would wait for the same. -/
theorem stuck_not_running {state : σ} (hstage : s.stages[k]? = some stage) :
    stage.life ≠ .running state := by
  intro hlife
  induction hleft : n - k generalizing k stage state with
  | zero =>
      have hlt := h.lt hstage
      omega
  | succ left ih =>
      have hcannot := (stuck_stage hstuck hstage).2
      obtain ⟨hends, -⟩ := h.running (fun _ => []) hattached hstage hlife
      cases hact : programs.act state with
      | read next =>
          exact stuck_not_reading hinherited hattached hcapacity h hstuck
            hstage hlife hact
      | exit code => exact hcannot _ _ _ (.exit hlife hact)
      | write byte next =>
          rcases hends.stdout_cases with ⟨d, hd, houtside, -⟩ |
            ⟨hwrite, hlast, -⟩
          · exact hcannot _ _ _ (.write hlife hact hd houtside)
          · by_cases hopen : s.Open (.readEnd k)
            · obtain ⟨i, reader, state', hreader, hlife', hholds⟩ :=
                stuck_open hinherited h hstuck hattached (Or.inl rfl) hopen
              obtain rfl : k + 1 = i := hholds
              exact ih hreader hlife' (by omega)
            · exact hcannot _ _ _ (.broken hlife hact hwrite hopen)

include hinherited hattached hcapacity h hstuck in
/-- **A job does not get stuck half-way.**  Where nothing can happen any more,
all stages have been started and have ended. -/
theorem stuck_ended : s.stages.length = n ∧
    ∀ (k : Nat) (stage : Stage σ α), s.stages[k]? = some stage →
      ¬ stage.Live := by
  refine ⟨(stuck_handler h hstuck).1, fun k stage hstage hlive => ?_⟩
  have hforked := (stuck_stage hstuck hstage).1
  have hrunning : ∀ state, stage.life ≠ .running state := fun _ =>
    stuck_not_running hinherited hattached hcapacity h hstuck hstage
  unfold Stage.Live at hlive
  cases hlife : stage.life with
  | forked list t => exact hforked list t hlife
  | running state => exact hrunning state hlife
  | exited =>
      rw [hlife] at hlive
      exact hlive
  | killed =>
      rw [hlife] at hlive
      exact hlive

end Stopped

/-! ## What a line asks for -/

section Lines

variable {σ α : Type} (programs : Programs σ)
  (contents : Description α → List UInt8) (openFails : Nat → Nat → Bool)
  (table : FdTable α)

instance (openFails : Nat → Bool) (n count : Nat) :
    Decidable (AllOpen openFails n count) :=
  inferInstanceAs (Decidable (∀ k, k < count → openFails (n + k) = false))

instance (n k : Nat) : Decidable (Executed n k) :=
  inferInstanceAs (Decidable (k < 2 ∨ k + 1 = n))

/-- What can be read from the standard input of the shell. -/
def shellInput : List UInt8 :=
  match table.entry stdinFd with
  | some x => contents (.inherited x)
  | none => []

/-- What the program of segment `k` of `n` is to do, if the segment is executed
and its files can be opened: it reads the file of the last `<`, else the pipe
in front of it, and writes to the file of the last `>`, else to the pipe
behind it. -/
def segmentPlan (n k : Nat) (segment : List CString) : Plan σ :=
  let redirections := segmentRedirections segment
  if Executed n k ∧ AllOpen (openFails k) 0 redirections.length then
    match programs.exec (segmentArguments segment) with
    | none => idle
    | some state =>
      { start := some state
        source :=
          match lastFile true redirections with
          | some word => some (contents (.file true word))
          | none => if k = 0 then some (shellInput contents table) else none
        toPipe := (lastFile false redirections).isNone && k + 1 != n }
  else idle

/-- What the programs of a line are to do. -/
def linePlan (tokens : List CString) (k : Nat) : Plan σ :=
  match (segments tokens)[k]? with
  | some segment =>
    segmentPlan programs contents openFails table (segments tokens).length k
      segment
  | none => idle

variable {programs contents openFails table} {n k : Nat}

theorem shellInput_eq (contents : Description α → List UInt8)
    (hopen : table.entry stdinFd ≠ none) :
    ∃ x, table.entry stdinFd = some x ∧
      shellInput contents table = contents (.inherited x) := by
  obtain ⟨x, hx⟩ := Option.ne_none_iff_exists'.mp hopen
  refine ⟨x, hx, ?_⟩
  unfold shellInput
  rw [hx]

/-- Where the standard input of a stage comes from. -/
theorem target_stdin (contents : Description α → List UInt8)
    (hopen : table.entry stdinFd ≠ none)
    (redirections : List (Bool × CString)) {standard : FdTable (Description α)}
    (h : standard.entry stdinFd = target true redirections
      (stageInput (table.map .inherited) k)) :
    (∃ d, standard.entry stdinFd = some d ∧ ∀ pipe, d ≠ .writeEnd pipe) ∧
      ownInput contents standard =
        match lastFile true redirections with
        | some word => some (contents (.file true word))
        | none => if k = 0 then some (shellInput contents table) else none := by
  unfold ownInput
  rw [h]
  unfold target
  cases lastFile true redirections with
  | some word => exact ⟨⟨_, rfl, nofun⟩, rfl⟩
  | none =>
      unfold stageInput
      by_cases hk : k = 0
      · obtain ⟨x, hx, hinput⟩ := shellInput_eq contents hopen
        rw [if_pos hk, if_pos hk, FdTable.entry_map, hx, hinput]
        exact ⟨⟨_, rfl, nofun⟩, rfl⟩
      · rw [if_neg hk, if_neg hk]
        exact ⟨⟨_, rfl, nofun⟩, rfl⟩

/-- Where the standard output of a stage goes. -/
theorem target_stdout (hopen : table.entry stdoutFd ≠ none) (hk : k < n)
    (redirections : List (Bool × CString)) {standard : FdTable (Description α)}
    (h : standard.entry stdoutFd = target false redirections
      (stageOutput (table.map .inherited) n k)) :
    (∃ d, standard.entry stdoutFd = some d ∧ (∀ pipe, d ≠ .readEnd pipe) ∧
      ∀ pipe, d = .writeEnd pipe → pipe + 1 < n) ∧
      writesPipe standard =
        ((lastFile false redirections).isNone && k + 1 != n) := by
  unfold writesPipe
  rw [h]
  unfold target
  cases lastFile false redirections with
  | some word =>
      exact ⟨⟨_, rfl, nofun, nofun⟩, rfl⟩
  | none =>
      unfold stageOutput
      by_cases hlast : k + 1 = n
      · obtain ⟨x, hx⟩ := Option.ne_none_iff_exists'.mp hopen
        rw [if_pos hlast, FdTable.entry_map, hx, hlast, bne_self_eq_false]
        exact ⟨⟨_, rfl, nofun, nofun⟩, rfl⟩
      · rw [if_neg hlast, bne_iff_ne.mpr hlast]
        refine ⟨⟨_, rfl, nofun, fun pipe heq => ?_⟩,
          rfl⟩
        cases heq
        omega

/-- A child comes to what its segment asks for, attached to its neighbours. -/
theorem child_plan (hopen : ∀ fd, fd < 3 → table.entry fd ≠ none) (hk : k < n)
    {segment : List CString} {reached : Option (List CString)} {p : Process α}
    (hexecuted : Executed n k → Attempts (openFails k)
      (segmentArguments segment) (segmentRedirections segment)
      (stageInput (table.map .inherited) k)
      (stageOutput (table.map .inherited) n k) reached p)
    (hstrayed : ¬ Executed n k → reached = none ∧ p.opened = [])
    (hholds : Holds (StageHolds k) p.table) :
    endingPlan programs contents (.ok (reached, p)) =
        segmentPlan programs contents openFails table n k segment ∧
      (reached ≠ none → Attached n k p.table) := by
  unfold segmentPlan
  by_cases hruns : Executed n k ∧
      AllOpen (openFails k) 0 (segmentRedirections segment).length
  · obtain ⟨rfl, hstdin, hstdout⟩ :=
      (hexecuted hruns.1).executed hruns.2
    obtain ⟨hin, hsource⟩ :=
      target_stdin contents (hopen stdinFd (by decide)) _ hstdin
    obtain ⟨hout, htoPipe⟩ :=
      target_stdout (hopen stdoutFd (by decide)) hk _ hstdout
    refine ⟨?_, fun _ => ⟨hholds, hin, hout⟩⟩
    simp only [if_pos hruns, endingPlan, hsource, htoPipe]
    cases programs.exec (segmentArguments segment) with
    | none => rfl
    | some state => rfl
  · have hnone : reached = none := by
      by_cases hexec : Executed n k
      · exact (hexecuted hexec).refused fun hall => hruns ⟨hexec, hall⟩
      · exact (hstrayed hexec).1
    subst hnone
    simp only [if_neg hruns]
    exact ⟨rfl, fun hne => absurd rfl hne⟩

/-- The plan of a line is the plan of its job. -/
theorem line_plan (heap : Heap) {list : SimpleList} {line : CommandLine}
    (programs : Programs σ) (contents : Description α → List UInt8)
    (openFails : Nat → Nat → Bool)
    (hlist : eraseSimpleList list = lineTree line)
    (hopen : ∀ fd, fd < 3 → table.entry fd ≠ none) :
    linePlan programs contents openFails table line.tokens =
        jobPlan programs contents (spawnPipeline (openingStages openFails) heap
          list table).children ∧
      AllAttached (segments line.tokens).length (spawnPipeline
        (openingStages openFails) heap list table).children := by
  obtain ⟨hlength, hchildren⟩ :=
    spawnPipeline_segments openFails heap hlist table hopen
  have hstage : ∀ k segment, (segments line.tokens)[k]? = some segment →
      ∃ reached p, (spawnPipeline (openingStages openFails) heap list
          table).children[k]? = some (.ok (reached, p)) ∧
        endingPlan programs contents (.ok (reached, p)) =
          segmentPlan programs contents openFails table
            (segments line.tokens).length k segment ∧
        (reached ≠ none →
          Attached (segments line.tokens).length k p.table) := by
    intro k segment hsegment
    obtain ⟨reached, p, hchild, hexecuted, hstrayed⟩ :=
      hchildren k segment hsegment
    have hholds := spawnLoop_children list.pipeline.simpleCommandList
      (AtHead.start table) (inherited_map table) hchild
    rw [show (SpawnState.initial (table.map Description.inherited)).round +
      k = k from Nat.zero_add k] at hholds
    exact ⟨reached, p, hchild, child_plan hopen
      (List.getElem?_eq_some_iff.mp hsegment).1 hexecuted hstrayed hholds⟩
  constructor
  · funext k
    unfold linePlan jobPlan
    cases hsegment : (segments line.tokens)[k]? with
    | none =>
        rw [List.getElem?_eq_none]
        rw [hlength]
        exact List.getElem?_eq_none_iff.mp hsegment
    | some segment =>
        obtain ⟨reached, p, hchild, hplan, -⟩ := hstage k segment hsegment
        rw [hchild]
        exact hplan.symm
  · intro k argv p hchild
    have hlt : k < (segments line.tokens).length := by
      rw [← hlength]
      exact (List.getElem?_eq_some_iff.mp hchild).1
    obtain ⟨reached, p', hchild', -, hattached⟩ :=
      hstage k _ (List.getElem?_eq_getElem hlt)
    cases hchild.symm.trans hchild'
    exact hattached (Option.some_ne_none _)

end Lines

/-! ## The files of a line -/

/-- The files that a line names behind `<`, or behind `>`. -/
def filesNamed (isInput : Bool) (tokens : List CString) : List CString :=
  (segments tokens).flatMap fun segment =>
    ((segmentRedirections segment).filter fun r => r.1 == isInput).map Prod.snd

/-- No file is named behind `<` and behind `>`. -/
def FilesApart (tokens : List CString) : Prop :=
  ∀ word ∈ filesNamed true tokens, word ∉ filesNamed false tokens

/-- Segment `k` is executed, its files can be opened, and the last one behind
`>` is one that no other segment names so. -/
def WritesAlone (openFails : Nat → Nat → Bool) (tokens : List CString)
    (k : Nat) (word : CString) : Prop :=
  ∃ segment, (segments tokens)[k]? = some segment ∧
    Executed (segments tokens).length k ∧
    AllOpen (openFails k) 0 (segmentRedirections segment).length ∧
    lastFile false (segmentRedirections segment) = some word ∧
    ∀ (j : Nat) (other : List CString), (segments tokens)[j]? = some other →
      (false, word) ∈ segmentRedirections other → j = k

section Files

variable {α : Type} {openFails : Nat → Nat → Bool} {heap : Heap}
  {list : SimpleList} {line : CommandLine} {table : FdTable α} {k : Nat}
  {isInput : Bool} {word : CString} {redirections : List (Bool × CString)}

theorem mem_filesNamed {tokens segment : List CString}
    (hsegment : (segments tokens)[k]? = some segment)
    (h : (isInput, word) ∈ segmentRedirections segment) :
    word ∈ filesNamed isInput tokens := by
  refine List.mem_flatMap.mpr
    ⟨segment, List.mem_of_getElem? hsegment, List.mem_map.mpr ?_⟩
  exact ⟨_, List.mem_filter.mpr ⟨h, beq_self_eq_true isInput⟩, rfl⟩

theorem mem_of_lastFile (h : lastFile isInput redirections = some word) :
    (isInput, word) ∈ redirections := by
  obtain ⟨⟨direction, _⟩, hlast, rfl⟩ := Option.map_eq_some_iff.mp h
  obtain ⟨hmem, hdirection⟩ :=
    List.mem_filter.mp (List.mem_of_getLast? hlast)
  obtain rfl : direction = isInput := beq_iff_eq.mp hdirection
  exact hmem

theorem mem_of_askedFor {openFails : Nat → Bool} {n : Nat}
    {r : Bool × CString} (h : r ∈ askedFor openFails n redirections) :
    r ∈ redirections := by
  induction redirections generalizing n with
  | nil => exact h
  | cons first rest ih =>
      unfold askedFor at h
      by_cases hfails : openFails n = true
      · rw [if_pos hfails, List.mem_singleton] at h
        rw [h]
        exact List.mem_cons_self
      · rw [if_neg hfails] at h
        rcases List.mem_cons.mp h with rfl | hrest
        · exact List.mem_cons_self
        · exact List.mem_cons_of_mem first (ih hrest)

theorem askedFor_eq {openFails : Nat → Bool} {n : Nat}
    (h : AllOpen openFails n redirections.length) :
    askedFor openFails n redirections = redirections := by
  induction redirections generalizing n with
  | nil => rfl
  | cons first rest ih =>
      cases hfails : openFails n with
      | true => exact absurd h (not_allOpen_of_first hfails)
      | false =>
          unfold askedFor
          rw [hfails, ih ((allOpen_succ hfails).mp h)]
          rfl

/-- A file that standard input or output refers to has been named for it. -/
theorem named_of_target {place : Option (Description α)} {isInput' : Bool}
    (hplace : place ≠ some (.file isInput' word))
    (h : target isInput redirections place = some (.file isInput' word)) :
    (isInput, word) ∈ redirections := by
  unfold target at h
  cases hlast : lastFile isInput redirections with
  | some word' =>
      rw [hlast] at h
      cases h
      exact mem_of_lastFile hlast
  | none =>
      rw [hlast] at h
      exact absurd h hplace

theorem stageInput_ne_file (table : FdTable α) (k : Nat) :
    stageInput (table.map .inherited) k ≠ some (.file isInput word) := by
  unfold stageInput
  split
  · rw [FdTable.entry_map]
    cases table.entry stdinFd <;> simp
  · simp

theorem stageOutput_ne_file (table : FdTable α) (n k : Nat) :
    stageOutput (table.map .inherited) n k ≠ some (.file isInput word) := by
  unfold stageOutput
  split
  · rw [FdTable.entry_map]
    cases table.entry stdoutFd <;> simp
  · simp

/-- A child opens files of its segment only. -/
theorem child_files (heap : Heap) (openFails : Nat → Nat → Bool)
    (hlist : eraseSimpleList list = lineTree line)
    (hopen : ∀ fd, fd < 3 → table.entry fd ≠ none) {ending : Ending α}
    (hending : (spawnPipeline (openingStages openFails) heap list
      table).children[k]? = some ending) :
    ∃ segment, (segments line.tokens)[k]? = some segment ∧
      ∃ reached p, ending = .ok (reached, p) ∧
      (∀ r ∈ p.opened, r ∈ segmentRedirections segment) ∧
      (reached ≠ none → ∀ isInput word,
        (p.table.entry stdinFd = some (.file isInput word) →
          (true, word) ∈ segmentRedirections segment) ∧
        (p.table.entry stdoutFd = some (.file isInput word) →
          (false, word) ∈ segmentRedirections segment)) := by
  obtain ⟨hlength, hchildren⟩ :=
    spawnPipeline_segments openFails heap hlist table hopen
  have hlt : k < (segments line.tokens).length := by
    rw [← hlength]
    exact (List.getElem?_eq_some_iff.mp hending).1
  obtain ⟨reached, p, hchild, hexecuted, hstrayed⟩ :=
    hchildren k _ (List.getElem?_eq_getElem hlt)
  cases hending.symm.trans hchild
  refine ⟨_, List.getElem?_eq_getElem hlt, reached, p, rfl, ?_⟩
  by_cases hexec : Executed (segments line.tokens).length k
  · have hattempts := hexecuted hexec
    constructor
    · intro r hr
      rw [hattempts.opened] at hr
      exact mem_of_askedFor hr
    · intro hreached isInput word
      have hall : AllOpen (openFails k) 0
          (segmentRedirections (segments line.tokens)[k]).length := by
        by_contra hnot
        exact hreached (hattempts.refused hnot)
      obtain ⟨-, hstdin, hstdout⟩ := hattempts.executed hall
      rw [hstdin, hstdout]
      exact ⟨named_of_target (stageInput_ne_file table k),
        named_of_target (stageOutput_ne_file table _ k)⟩
  · obtain ⟨rfl, hopened⟩ := hstrayed hexec
    rw [hopened]
    exact ⟨nofun, fun hne => absurd rfl hne⟩

/-- What a child has truncated it has opened for output. -/
theorem opened_of_truncated {openFails : Nat → Bool}
    {reached : Option (List CString)} {p : Process α}
    (h : word ∈ truncated openFails (.ok (reached, p))) :
    (false, word) ∈ p.opened := by
  obtain ⟨⟨⟨direction, word'⟩, call⟩, hmem, hsome⟩ := List.mem_filterMap.mp h
  by_cases houtput : direction = false ∧ openFails call = false
  · simp only [if_pos houtput] at hsome
    cases hsome
    rw [← houtput.1]
    exact List.fst_mem_of_mem_zipIdx hmem
  · simp only [if_neg houtput] at hsome
    cases hsome

theorem truncated_of_opened {openFails : Nat → Bool}
    {reached : Option (List CString)} {p : Process α}
    (hall : AllOpen openFails 0 p.opened.length)
    (h : (false, word) ∈ p.opened) :
    word ∈ truncated openFails (.ok (reached, p)) := by
  obtain ⟨call, hcall, hget⟩ := List.getElem_of_mem h
  have hgranted := hall call hcall
  rw [Nat.zero_add] at hgranted
  refine List.mem_filterMap.mpr ⟨((false, word), call), ?_, ?_⟩
  · rw [List.mem_zipIdx_iff_getElem?]
    exact hget ▸ List.getElem?_eq_getElem hcall
  · exact if_pos ⟨rfl, hgranted⟩

/-- The children of a line that keeps its files apart do so, too. -/
theorem line_apart (heap : Heap) (openFails : Nat → Nat → Bool)
    (hlist : eraseSimpleList list = lineTree line)
    (hopen : ∀ fd, fd < 3 → table.entry fd ≠ none)
    (hfiles : FilesApart line.tokens) :
    Apart openFails (spawnPipeline (openingStages openFails) heap list
      table).children (· ∈ filesNamed true line.tokens) := by
  constructor
  · intro k argv p isInput word hending hstdin
    obtain ⟨segment, hsegment, reached, p', heq, -, hnamed⟩ :=
      child_files heap openFails hlist hopen hending
    cases heq
    exact mem_filesNamed hsegment
      ((hnamed (Option.some_ne_none _) isInput word).1 hstdin)
  · intro k ending hending word htruncated hread
    obtain ⟨segment, hsegment, reached, p, rfl, hopened, -⟩ :=
      child_files heap openFails hlist hopen hending
    exact hfiles word hread (mem_filesNamed hsegment
      (hopened _ (opened_of_truncated htruncated)))
  · intro k argv p isInput word hending hstdout hread
    obtain ⟨segment, hsegment, reached, p', heq, -, hnamed⟩ :=
      child_files heap openFails hlist hopen hending
    cases heq
    exact hfiles word hread (mem_filesNamed hsegment
      ((hnamed (Option.some_ne_none _) isInput word).2 hstdout))

/-- A stage that writes to its file alone owns it. -/
theorem line_owns (heap : Heap) (openFails : Nat → Nat → Bool)
    (hlist : eraseSimpleList list = lineTree line)
    (hopen : ∀ fd, fd < 3 → table.entry fd ≠ none)
    (halone : WritesAlone openFails line.tokens k word) :
    Owns openFails (spawnPipeline (openingStages openFails) heap list
      table).children k word := by
  obtain ⟨segment, hsegment, hexec, hall, hlast, hothers⟩ := halone
  obtain ⟨reached, p, hchild, hexecuted, -⟩ :=
    (spawnPipeline_segments openFails heap hlist table hopen).2 k _ hsegment
  have hattempts := hexecuted hexec
  constructor
  · intro j ending hending
    constructor
    · intro htruncated
      obtain ⟨other, hother, reached', p', rfl, hopened, -⟩ :=
        child_files heap openFails hlist hopen hending
      exact hothers j other hother (hopened _ (opened_of_truncated htruncated))
    · rintro rfl
      cases hending.symm.trans hchild
      have hopened := hattempts.opened.trans (askedFor_eq hall)
      apply truncated_of_opened
      · rw [hopened]
        exact hall
      · rw [hopened]
        exact mem_of_lastFile hlast
  · intro j argv p' hending
    constructor
    · rintro ⟨isInput, hstdout⟩
      obtain ⟨other, hother, reached', p'', heq, -, hnamed⟩ :=
        child_files heap openFails hlist hopen hending
      cases heq
      exact hothers j other hother
        ((hnamed (Option.some_ne_none _) isInput word).2 hstdout)
    · rintro rfl
      cases hending.symm.trans hchild
      obtain ⟨-, -, hstdout⟩ := hattempts.executed hall
      refine ⟨false, hstdout.trans ?_⟩
      unfold target
      rw [hlast]

end Files

/-! ## What comes out -/

section Flow

variable {σ α : Type} {programs : Programs σ}
  {inherited : α → List UInt8} {openFails : Nat → Nat → Bool}
  {heap : Heap} {initial : FdTable (Description α)} {n capacity : Nat}
  {endings : List (Ending α)} {output : Nat → List UInt8}
  {plan : Nat → Plan σ} {s : JobState σ α} {k : Nat} {stage : Stage σ α}
  {read : CString → Prop} {file : Files}

/-- A job in the middle of its work, with at most `budget` steps to take. -/
def AtWork (programs : Programs σ) (openFails : Nat → Nat → Bool)
    (heap : Heap) (initial : FdTable (Description α)) (n : Nat)
    (endings : List (Ending α)) (read : CString → Prop) (file : Files)
    (plan : Nat → Plan σ) (output : Nat → List UInt8) (s : JobState σ α)
    (budget : Nat) : Prop :=
  JobInv programs openFails heap initial n endings s ∧ Kept read file s ∧
    ∃ left, budget = left + s.handler.weight ∧
      Chain.Ok programs.act plan n output (s.chain plan) left

theorem AtWork.step {s' : JobState σ α} {budget : Nat}
    (hattached : AllAttached n endings) (hapart : Apart openFails endings read)
    (hplan : plan = jobPlan programs (file.contents inherited) endings)
    (h : AtWork programs openFails heap initial n endings read file plan output
      s budget)
    (hstep : JobStep programs capacity inherited openFails heap s s') :
    ∃ budget', budget' < budget ∧
      AtWork programs openFails heap initial n endings read file plan output s'
        budget' := by
  obtain ⟨hinv, hkept, left, rfl, hok⟩ := h
  obtain ⟨left', hless, hok'⟩ :=
    hinv.lowers hattached hapart hkept hplan hok hstep
  exact ⟨_, hless, hinv.step hstep, hkept.step hinv hapart hstep, left', rfl,
    hok'⟩

theorem AtWork.runs {s' : JobState σ α} {budget : Nat}
    (hattached : AllAttached n endings) (hapart : Apart openFails endings read)
    (hplan : plan = jobPlan programs (file.contents inherited) endings)
    (h : AtWork programs openFails heap initial n endings read file plan output
      s budget)
    (hruns : Runs (JobStep programs capacity inherited openFails heap) s s') :
    ∃ budget', AtWork programs openFails heap initial n endings read file plan
      output s' budget' := by
  refine Runs.invariant (I := fun t => ∃ budget', AtWork programs openFails
    heap initial n endings read file plan output t budget')
    (fun a b ⟨budget', h'⟩ hstep => ?_) hruns ⟨budget, h⟩
  obtain ⟨budget'', -, hnext⟩ := h'.step hattached hapart hplan hstep
  exact ⟨budget'', hnext⟩

theorem Stored.runs {s' : JobState σ α} {word : CString}
    (hinv : JobInv programs openFails heap initial n endings s)
    (howns : Owns openFails endings k word) (h : Stored k word s)
    (hruns : Runs (JobStep programs capacity inherited openFails heap) s s') :
    Stored k word s' :=
  (Runs.invariant (I := fun t =>
      JobInv programs openFails heap initial n endings t ∧ Stored k word t)
    (fun _ _ h hstep => ⟨h.1.step hstep, h.2.step h.1 howns hstep⟩) hruns
    ⟨hinv, h⟩).2

/-- What a stage has written is what its program will have written. -/
theorem written_prefix {left : Nat}
    (hinv : JobInv programs openFails heap initial n endings s)
    (hok : Chain.Ok programs.act plan n output (s.chain plan) left)
    (hstage : s.stages[k]? = some stage) : stage.written <+: output k := by
  have hbegins : (s.cell plan k).written <+: output k :=
    hok.written_prefix (hinv.lt hstage)
  have hthis := hinv.stage k stage hstage
  rw [cell_eq hstage] at hbegins
  unfold Stage.cell at hbegins
  unfold StageOk at hthis
  cases hlife : stage.life with
  | forked list t =>
      rw [hlife] at hthis
      rw [hthis.2.2.1]
      exact List.nil_prefix
  | running state =>
      rw [hlife] at hbegins
      exact hbegins
  | exited =>
      rw [hlife] at hbegins
      exact hbegins
  | killed =>
      rw [hlife] at hbegins
      exact hbegins

/-- A stage that has ended has written its output, or was writing into a pipe
that nobody read. -/
theorem ended_written {left : Nat}
    (hinv : JobInv programs openFails heap initial n endings s)
    (hok : Chain.Ok programs.act plan n output (s.chain plan) left)
    (hstage : s.stages[k]? = some stage) (hended : ¬ stage.Live) :
    stage.life = .exited ∧ stage.written = output k ∨
      stage.life = .killed ∧ (plan k).toPipe = true := by
  have hthis := hok.ended (hinv.lt hstage) (chain_ended hstage hended)
  change (s.cell plan k).life = .exited ∧ (s.cell plan k).written = output k ∨
    (s.cell plan k).life = .killed ∧ (plan k).toPipe = true at hthis
  rw [cell_eq hstage] at hthis
  unfold Stage.cell at hthis
  unfold Stage.Live at hended
  cases hlife : stage.life with
  | forked list t =>
      rw [hlife] at hended
      exact absurd trivial hended
  | running state =>
      rw [hlife] at hended
      exact absurd trivial hended
  | exited =>
      rw [hlife] at hthis
      rcases hthis with ⟨-, hwritten⟩ | ⟨hkilled, -⟩
      · exact Or.inl ⟨rfl, hwritten⟩
      · cases hkilled
  | killed =>
      rw [hlife] at hthis
      rcases hthis with ⟨hexited, -⟩ | ⟨-, htoPipe⟩
      · cases hexited
      · exact Or.inr ⟨rfl, htoPipe⟩

/-- A stage that writes to a file does not write into a pipe. -/
theorem WritesAlone.toPipe {tokens : List CString} {word : CString}
    (programs : Programs σ) (contents : Description α → List UInt8)
    (table : FdTable α) (h : WritesAlone openFails tokens k word) :
    (linePlan programs contents openFails table tokens k).toPipe = false := by
  obtain ⟨segment, hsegment, hexec, hall, hlast, -⟩ := h
  unfold linePlan
  simp only [hsegment, segmentPlan, if_pos (And.intro hexec hall)]
  cases programs.exec (segmentArguments segment) with
  | none => rfl
  | some state =>
      simp only [hlast]
      rfl

end Flow

/-- A program that copies its input. -/
inductive Copying where
  | reading
  | writing (byte : UInt8)
  | done

def copying : Programs Copying where
  exec _ := some .reading
  act
    | .reading => .read fun
      | some byte => .writing byte
      | none => .done
    | .writing byte => .write byte .reading
    | .done => .exit 0

theorem copying_computes (bytes : List UInt8) :
    Computes copying.act .reading bytes bytes := by
  suffices hends : ∀ written, ∃ n,
      EndsIn copying.act n .reading bytes written (written ++ bytes) from
    hends []
  induction bytes with
  | nil =>
      intro written
      rw [List.append_nil]
      exact ⟨1, .readEnd rfl (.exit [] written rfl)⟩
  | cons byte rest ih =>
      intro written
      obtain ⟨n, hends⟩ := ih (written ++ [byte])
      rw [List.append_assoc] at hends
      exact ⟨n + 2, .read rfl (.write rfl hends)⟩

theorem isWord_tokenA : isWord tokenA = true := rfl

theorem isWord_tokenB : isWord tokenB = true := rfl

/-- `a < b | b > a` -/
def lineOfFiles : CommandLine :=
  ⟨⟨⟨tokenA, isWord_tokenA⟩, [.redirect true ⟨tokenB, isWord_tokenB⟩]⟩,
    [⟨⟨tokenB, isWord_tokenB⟩, [.redirect false ⟨tokenA, isWord_tokenA⟩]⟩],
    false⟩

def filesOfTwo : Files := fun word =>
  if word = tokenB then [104, 105] else [111]

end OsLabs.Iwish.PipelineFlow
