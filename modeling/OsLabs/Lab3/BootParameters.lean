import OsLabs.Lab3.UtcTime
import OsLabs.Posix.Decimal
import OsLabs.Posix.StringCopy

/-!
# The boot parameters

`get_value`, `env_get` and `cstart` of `kernel/main.c`.  The boot monitor
leaves a buffer of strings, one behind the other, with an empty string behind
the last one; a string of the form `key=value` is a setting.

The headers of the kernel are not part of the repository: which of the
`#ifdef`s are on, the name `VERBOSEBOOTVARNAME`, `DEFAULT_HZ` and what the
globals hold before `cstart` are parameters (`Kernel`).  The kernel is compiled
for a machine whose `long` has 32 bits.

`getValue_exact`: on every such buffer the search ends inside it, with a
pointer into the first string that begins with `name=`, behind the `=`.
`envGet_lookup`: what was written as settings is found again.
`cstart_settings`: what `cstart` makes of the settings.
-/

namespace OsLabs.Lab3.BootParameters

open OsLabs.Posix UtcTime

/-! ## The source -/

/-- A pointer into the parameter buffer: the cells from there on. -/
abbrev Pointer := List (Option UInt8)

/-- `while (*envp++ != 0)` -/
def skipString : Pointer → Except Fault Pointer
  | [] => .error .outOfBounds
  | none :: _ => .error .uninitialised
  | some c :: envp => if c ≠ 0 then skipString envp else .ok envp

/-- `for (; *namep != 0 && *namep == *envp; namep++, envp++)`, with the bytes
of the name from `namep` on. -/
def matchName : List UInt8 → Pointer → Except Fault (List UInt8 × Pointer)
  | [], envp => .ok ([], envp)
  | c :: namep, envp => do
    let e ← loadAt envp 0
    if c = e then matchName namep (envp.drop 1) else return (c :: namep, envp)

/-- `*namep == '\0' && *envp == '='` -/
def atEqualsSign (namep : List UInt8) (envp : Pointer) : Except Fault Bool :=
  match namep with
  | [] => do
    let e ← loadAt envp 0
    return e = 61
  | _ :: _ => return false

/-- The loop of `get_value`. -/
def getValueLoop (name : CString) : Nat → Pointer →
    Except Fault (Option Pointer)
  | 0, _ => .error .outOfFuel
  | fuel + 1, envp => do
    let e ← loadAt envp 0
    if e = 0 then return none
    else do
      let (namep, envp) ← matchName name.bytes envp
      let found ← atEqualsSign namep envp
      if found then return some (envp.drop 1)
      else do
        let envp ← skipString envp
        getValueLoop name fuel envp

/-- `get_value` -/
def getValue (params : Pointer) (name : CString) :
    Except Fault (Option Pointer) :=
  getValueLoop name (params.length + 1) params

/-- `env_get`, and the string that its callers read from what it returns. -/
def envGet (paramBuf : Pointer) (name : CString) :
    Except Fault (Option CString) := do
  let value ← getValue paramBuf name
  value.mapM takeString

/-- The globals that `cstart` sets from the parameters. -/
structure Globals where
  verboseboot : Int
  systemHz : TickFrequency
  configNoApic : Int
  configApicTimerX : Int
  watchdogEnabled : Int
  configNoSmp : Int

/-- What the headers of the kernel say. -/
structure Kernel where
  useApic : Bool
  useWatchdog : Bool
  configSmp : Bool
  verboseBootVarName : CString
  defaultHz : TickFrequency

/-- `"hz"` -/
def hzName : CString := ⟨[104, 122], by decide⟩

/-- `"no_apic"` -/
def noApicName : CString := ⟨[110, 111, 95, 97, 112, 105, 99], by decide⟩

/-- `"apic_timer_x"` -/
def apicTimerXName : CString :=
  ⟨[97, 112, 105, 99, 95, 116, 105, 109, 101, 114, 95, 120], by decide⟩

/-- `"watchdog"` -/
def watchdogName : CString :=
  ⟨[119, 97, 116, 99, 104, 100, 111, 103], by decide⟩

/-- `"no_smp"` -/
def noSmpName : CString := ⟨[110, 111, 95, 115, 109, 112], by decide⟩

/-- `value ? atoi(value) : standard` -/
def numberOr (standard : Int) (value : Option CString) : Int :=
  match value with
  | some s => atoi32 s
  | none => standard

/-- `#ifdef USE_APIC` -/
def readApic (get : CString → Except Fault (Option CString)) (g : Globals) :
    Except Fault Globals := do
  let noApic ← get noApicName
  let timer ← get apicTimerXName
  return { g with
    configNoApic := numberOr 1 noApic
    configApicTimerX := numberOr 1 timer }

/-- `#ifdef USE_WATCHDOG` -/
def readWatchdog (get : CString → Except Fault (Option CString))
    (g : Globals) : Except Fault Globals := do
  let value ← get watchdogName
  return { g with watchdogEnabled := numberOr g.watchdogEnabled value }

/-- `#ifdef CONFIG_SMP` -/
def readSmp (get : CString → Except Fault (Option CString)) (g : Globals) :
    Except Fault Globals := do
  let g := if g.configNoApic ≠ 0 then { g with configNoSmp := 1 } else g
  let value ← get noSmpName
  return { g with configNoSmp := numberOr 0 value }

/-- `cstart`, with `env_get` as `get`. -/
def cstart (kernel : Kernel) (get : CString → Except Fault (Option CString))
    (g : Globals) : Except Fault Globals := do
  let verbose ← get kernel.verboseBootVarName
  let g := { g with verboseboot := numberOr g.verboseboot verbose }
  let hz ← get hzName
  let g := { g with
    systemHz := UtcTime.cstart (hz.map atoi32) kernel.defaultHz }
  let g ← if kernel.useApic then readApic get g else pure g
  let g ← if kernel.useWatchdog then readWatchdog get g else pure g
  if kernel.configSmp then readSmp get g else pure g

/-- How `kmain` goes on. -/
inductive Start where
  | smpSingleCpuFallback
  | smpInit
  | bspFinishBooting
  deriving Repr, DecidableEq

/-- The last part of `kmain`. -/
def startProcessors (kernel : Kernel) (g : Globals) : Start :=
  if kernel.configSmp then
    if g.configNoApic ≠ 0 then .smpSingleCpuFallback
    else if g.configNoSmp ≠ 0 then .smpSingleCpuFallback
    else .smpInit
  else .bspFinishBooting

/-! ## The buffer -/

/-- The cells of a string and its terminator. -/
def cells (s : CString) : List (Option UInt8) := s.image.map some

/-- The buffer with these strings. -/
def buffer (strings : List CString) (spare : List (Option UInt8)) : Pointer :=
  strings.flatMap cells ++ some 0 :: spare

/-- The text of `s` behind `name=`. -/
def textBehind (name s : CString) : Option CString :=
  if name.bytes ++ [61] <+: s.bytes then
    some ⟨s.bytes.drop (name.bytes.length + 1),
      fun hmem => s.nulFree (List.mem_of_mem_drop hmem)⟩
  else none

/-! ## One string -/

section OneString

variable {name bytes namep : List UInt8} {rest : Pointer} {c : UInt8}

theorem skipString_append (h : (0 : UInt8) ∉ bytes) (rest : Pointer) :
    skipString (bytes.map some ++ some 0 :: rest) = .ok rest := by
  induction bytes with
  | nil => rfl
  | cons c bytes ih =>
      have hc : c ≠ 0 := fun heq => h (heq ▸ List.mem_cons_self)
      rw [List.map_cons, List.cons_append, skipString, if_pos hc]
      exact ih fun hmem => h (List.mem_cons_of_mem c hmem)

/-- The pointers part where the bytes differ, at the latest at the end of the
shorter string. -/
theorem matchName_append (h : (0 : UInt8) ∉ name) (bytes : List UInt8)
    (rest : Pointer) :
    ∃ agreed namep bytes', name = agreed ++ namep ∧ bytes = agreed ++ bytes' ∧
      matchName name (bytes.map some ++ some 0 :: rest) =
        .ok (namep, bytes'.map some ++ some 0 :: rest) ∧
      ∀ c ∈ namep.head?, c ∉ bytes'.head? := by
  induction name generalizing bytes with
  | nil => exact ⟨[], [], bytes, rfl, rfl, rfl, fun c hc => nomatch hc⟩
  | cons c name ih =>
      cases bytes with
      | nil =>
          have hc : c ≠ 0 := fun heq => h (heq ▸ List.mem_cons_self)
          have hstop : matchName (c :: name) (some 0 :: rest) =
              if c = 0 then matchName name rest
              else .ok (c :: name, some 0 :: rest) := rfl
          rw [if_neg hc] at hstop
          exact ⟨[], c :: name, [], rfl, rfl, hstop,
            fun _ _ hnil => nomatch hnil⟩
      | cons b bytes =>
          have hround : matchName (c :: name)
              ((b :: bytes).map some ++ some 0 :: rest) =
                if c = b then matchName name (bytes.map some ++ some 0 :: rest)
                else .ok (c :: name, (b :: bytes).map some ++ some 0 :: rest) :=
            rfl
          by_cases heq : c = b
          · subst heq
            rw [if_pos rfl] at hround
            obtain ⟨agreed, namep, bytes', hname, hbytes, hmatch, hpart⟩ :=
              ih (fun hmem => h (List.mem_cons_of_mem c hmem)) bytes
            exact ⟨c :: agreed, namep, bytes', by rw [hname, List.cons_append],
              by rw [hbytes, List.cons_append], hround.trans hmatch, hpart⟩
          · rw [if_neg heq] at hround
            refine ⟨[], c :: name, b :: bytes, rfl, rfl, hround, ?_⟩
            intro d hd hd'
            cases hd
            cases hd'
            exact heq rfl

/-- Both tests behind the loop look at the bytes where it has stopped. -/
theorem atEqualsSign_append (rest : Pointer)
    (hpart : ∀ c ∈ namep.head?, c ∉ bytes.head?) :
    atEqualsSign namep (bytes.map some ++ some 0 :: rest) =
      .ok (decide (namep ++ [61] <+: bytes)) := by
  cases namep with
  | nil =>
      cases bytes with
      | nil => rfl
      | cons b bytes =>
          have hfirst : [61] <+: b :: bytes ↔ b = 61 := by
            rw [List.singleton_prefix_cons_iff]
            exact eq_comm
          show Except.ok (decide (b = 61)) = _
          exact congrArg Except.ok (decide_eq_decide.mpr hfirst.symm)
  | cons c namep =>
      have hnot : ¬ c :: namep ++ [61] <+: bytes := by
        intro hbegins
        cases bytes with
        | nil => cases List.prefix_nil.mp hbegins
        | cons b bytes =>
            have heq := (List.cons_prefix_cons.mp hbegins).1
            exact hpart c rfl (congrArg some heq.symm)
      rw [decide_eq_false hnot]
      rfl

end OneString

/-! ## The search -/

section Search

variable {name s : CString} {strings : List CString} {rest spare : Pointer}
  {fuel : Nat}

theorem cells_append (s : CString) (rest : Pointer) :
    cells s ++ rest = s.bytes.map some ++ some 0 :: rest := by
  rw [cells, CString.image, List.map_append, List.append_assoc]
  rfl

/-- A round of the outer loop on a string that is not empty: the text behind
`name=`, or else the next string. -/
theorem getValueLoop_cells (hs : s.bytes ≠ []) (rest : Pointer) :
    getValueLoop name (fuel + 1) (cells s ++ rest) =
      if name.bytes ++ [61] <+: s.bytes then
        .ok (some ((s.bytes.drop (name.bytes.length + 1)).map some ++
          some 0 :: rest))
      else getValueLoop name fuel rest := by
  obtain ⟨agreed, namep, bytes, hname, hbytes, hmatch, hpart⟩ :=
    matchName_append name.nulFree s.bytes rest
  have hfound := atEqualsSign_append rest hpart
  have hbegins : name.bytes ++ [61] <+: s.bytes ↔ namep ++ [61] <+: bytes := by
    rw [hname, hbytes, List.append_assoc, List.prefix_append_right_inj]
  have hfirst : ∃ c, loadAt (cells s ++ rest) 0 = .ok c ∧ c ≠ 0 := by
    have hnul := s.nulFree
    rw [cells_append]
    cases hcells : s.bytes with
    | nil => exact absurd hcells hs
    | cons c tail =>
        rw [hcells] at hnul
        exact ⟨c, rfl, fun heq => hnul (heq ▸ List.mem_cons_self)⟩
  obtain ⟨c, hload, hc⟩ := hfirst
  rw [getValueLoop, hload, except_ok_bind, if_neg hc, cells_append, hmatch]
  simp only [except_ok_bind, hfound, decide_eq_true_eq]
  by_cases htext : namep ++ [61] <+: bytes
  · rw [if_pos htext, if_pos (hbegins.mpr htext)]
    obtain ⟨value, rfl⟩ := htext
    cases namep with
    | nil =>
        rw [hname, hbytes, List.append_nil, List.drop_append]
        simp
    | cons c namep => exact absurd rfl (hpart c rfl)
  · rw [if_neg htext, if_neg fun hall => htext (hbegins.mp hall)]
    have hrest : (0 : UInt8) ∉ bytes := fun hmem =>
      s.nulFree (hbytes ▸ List.mem_append_right agreed hmem)
    rw [skipString_append hrest, except_ok_bind]

theorem buffer_cons (s : CString) (strings : List CString) (spare : Pointer) :
    buffer (s :: strings) spare = cells s ++ buffer strings spare := by
  rw [buffer, List.flatMap_cons, List.append_assoc]
  rfl

theorem textBehind_of_prefix (h : name.bytes ++ [61] <+: s.bytes) :
    ∃ value, textBehind name s = some value ∧
      value.bytes = s.bytes.drop (name.bytes.length + 1) :=
  ⟨_, if_pos h, rfl⟩

theorem textBehind_eq_some {value : CString}
    (h : textBehind name s = some value) :
    s.bytes = name.bytes ++ 61 :: value.bytes := by
  by_cases htext : name.bytes ++ [61] <+: s.bytes
  · obtain ⟨value', hvalue, hbytes⟩ := textBehind_of_prefix htext
    rw [hvalue, Option.some.injEq] at h
    subst h
    obtain ⟨bytes, hs⟩ := htext
    rw [hbytes, ← hs]
    simp
  · cases (if_neg htext : textBehind name s = none).symm.trans h

theorem textBehind_eq_none :
    textBehind name s = none ↔ ¬ name.bytes ++ [61] <+: s.bytes := by
  unfold textBehind
  by_cases htext : name.bytes ++ [61] <+: s.bytes
  · rw [if_pos htext]
    exact iff_of_false (Option.some_ne_none _) (not_not_intro htext)
  · rw [if_neg htext]
    exact iff_of_true rfl htext

/-- A pointer to the text behind `name=` of the first string that begins so,
with the rest of the buffer behind it. -/
structure PointsBehind (name : CString) (strings : List CString)
    (spare : Pointer) (p : Pointer) (before : List CString) (s : CString)
    (after : List CString) (value : CString) : Prop where
  split : strings = before ++ s :: after
  first : ∀ t ∈ before, ¬ name.bytes ++ [61] <+: t.bytes
  text : s.bytes = name.bytes ++ 61 :: value.bytes
  pointer : p = cells value ++ buffer after spare

/-- The search over the strings of a buffer, from one of them on. -/
theorem getValueLoop_buffer (hstrings : ∀ s ∈ strings, s.bytes ≠ [])
    (hfuel : strings.length < fuel) (spare : Pointer) :
    (getValueLoop name fuel (buffer strings spare) = .ok none ∧
      ∀ s ∈ strings, ¬ name.bytes ++ [61] <+: s.bytes) ∨
    ∃ p before s after value,
      getValueLoop name fuel (buffer strings spare) = .ok (some p) ∧
      PointsBehind name strings spare p before s after value := by
  induction strings generalizing fuel with
  | nil =>
      obtain ⟨rounds, rfl⟩ : ∃ rounds, fuel = rounds + 1 :=
        ⟨fuel - 1, by omega⟩
      exact Or.inl ⟨rfl, fun _ hs => nomatch hs⟩
  | cons s strings ih =>
      obtain ⟨rounds, rfl⟩ : ∃ rounds, fuel = rounds + 1 :=
        ⟨fuel - 1, by omega⟩
      have hround := @getValueLoop_cells name s rounds
        (hstrings s List.mem_cons_self) (buffer strings spare)
      rw [buffer_cons]
      by_cases htext : name.bytes ++ [61] <+: s.bytes
      · rw [if_pos htext] at hround
        obtain ⟨value, hvalue, hbytes⟩ := textBehind_of_prefix htext
        rw [← hbytes, ← cells_append] at hround
        exact Or.inr ⟨_, [], s, strings, value, hround, rfl,
          fun _ ht => absurd ht List.not_mem_nil, textBehind_eq_some hvalue,
          rfl⟩
      · rw [if_neg htext] at hround
        rw [List.length_cons] at hfuel
        rcases ih (fun t ht => hstrings t (List.mem_cons_of_mem s ht))
            (Nat.lt_of_succ_lt_succ hfuel) with
          ⟨hnone, hall⟩ | ⟨p, before, t, after, value, hsome, hbehind⟩
        · refine Or.inl ⟨hround.trans hnone, fun t ht => ?_⟩
          rcases List.mem_cons.mp ht with rfl | ht
          · exact htext
          · exact hall t ht
        · refine Or.inr ⟨p, s :: before, t, after, value, hround.trans hsome,
            congrArg (s :: ·) hbehind.split, fun u hu => ?_, hbehind.text,
            hbehind.pointer⟩
          rcases List.mem_cons.mp hu with rfl | hu
          · exact htext
          · exact hbehind.first u hu

/-- Every string takes a cell at least. -/
theorem length_lt_buffer (strings : List CString) (spare : Pointer) :
    strings.length < (buffer strings spare).length := by
  induction strings with
  | nil => exact Nat.succ_pos _
  | cons s strings ih =>
      have hcells : (cells s).length = s.bytes.length + 1 := by
        rw [cells, CString.image, List.length_map, List.length_append]
        rfl
      rw [buffer_cons, List.length_append, hcells, List.length_cons]
      omega

/-- The search over a whole buffer. -/
theorem getValue_buffer (hstrings : ∀ s ∈ strings, s.bytes ≠ [])
    (name : CString) (spare : Pointer) :
    (getValue (buffer strings spare) name = .ok none ∧
      ∀ s ∈ strings, ¬ name.bytes ++ [61] <+: s.bytes) ∨
    ∃ p before s after value,
      getValue (buffer strings spare) name = .ok (some p) ∧
      PointsBehind name strings spare p before s after value :=
  getValueLoop_buffer hstrings
    (Nat.lt_succ_of_lt (length_lt_buffer strings spare)) spare

/-- What is read behind such a pointer is what an abstract search finds. -/
theorem PointsBehind.read {p : Pointer} {before after : List CString}
    {value : CString}
    (h : PointsBehind name strings spare p before s after value) :
    takeString p = .ok value ∧
      strings.findSome? (textBehind name) = some value := by
  have hbehind : textBehind name s = some value := by
    have hbegins : name.bytes ++ [61] <+: s.bytes := by
      rw [h.text]
      exact ⟨value.bytes, by simp⟩
    obtain ⟨value', hvalue', hbytes⟩ := textBehind_of_prefix hbegins
    have hsame : value' = value := by
      apply CString.ext_bytes
      rw [hbytes, h.text]
      simp
    rw [hvalue', hsame]
  constructor
  · rw [h.pointer, cells_append]
    exact takeString_append value _
  · rw [List.findSome?_eq_some_iff]
    exact ⟨before, s, after, h.split, hbehind,
      fun t ht => textBehind_eq_none.mpr (h.first t ht)⟩

/-- `env_get` reads inside the buffer only, and gives the text behind the
first `name=`. -/
theorem envGet_buffer (hstrings : ∀ s ∈ strings, s.bytes ≠ [])
    (name : CString) (spare : Pointer) :
    envGet (buffer strings spare) name =
      .ok (strings.findSome? (textBehind name)) := by
  rw [envGet]
  rcases getValue_buffer hstrings name spare with
    ⟨hnone, hall⟩ | ⟨p, before, s, after, value, hsome, hbehind⟩
  · have hfind : strings.findSome? (textBehind name) = none :=
      List.findSome?_eq_none_iff.mpr fun s hs =>
        textBehind_eq_none.mpr (hall s hs)
    rw [hnone, hfind]
    rfl
  · obtain ⟨hread, hfind⟩ := hbehind.read
    rw [hsome, hfind, except_ok_bind, Option.mapM_some, hread]
    rfl

/-- **The search is exact**: it never leaves the buffer, it returns a null
pointer when no string starts with `name=`, and else a pointer into the first
such string, to the text behind the `=`. -/
theorem getValue_exact (hstrings : ∀ s ∈ strings, s.bytes ≠ [])
    (name : CString) (spare : Pointer) :
    ∃ pointer, getValue (buffer strings spare) name = .ok pointer ∧
      (pointer = none ↔
        ∀ s ∈ strings, ¬ name.bytes ++ [61] <+: s.bytes) ∧
      ∀ p, pointer = some p →
        ∃ before s after value, strings = before ++ s :: after ∧
          (∀ t ∈ before, ¬ name.bytes ++ [61] <+: t.bytes) ∧
          s.bytes = name.bytes ++ 61 :: value.bytes ∧
          p = cells value ++ buffer after spare ∧
          buffer strings spare =
            before.flatMap cells ++ (name.bytes ++ [61]).map some ++ p ∧
          takeString p = .ok value := by
  rcases getValue_buffer hstrings name spare with
    ⟨hnone, hall⟩ | ⟨p, before, s, after, value, hsome, hbehind⟩
  · exact ⟨none, hnone, iff_of_true rfl hall, fun p hp => nomatch hp⟩
  · refine ⟨some p, hsome, iff_of_false (Option.some_ne_none p) ?_, ?_⟩
    · intro hall
      refine hall s ?_ ⟨value.bytes, ?_⟩
      · rw [hbehind.split]
        exact List.mem_append_right before List.mem_cons_self
      · rw [hbehind.text, List.append_assoc, List.singleton_append]
    · rintro _ ⟨⟩
      refine ⟨before, s, after, value, hbehind.split, hbehind.first,
        hbehind.text, hbehind.pointer, ?_, hbehind.read.1⟩
      rw [hbehind.pointer, hbehind.split]
      simp [buffer, cells, CString.image, hbehind.text]

/-- `"hz=100"` -/
def hundredHz : CString := ⟨[104, 122, 61, 49, 48, 48], by decide⟩

/-- The string `hz` itself is passed over. -/
theorem getValue_exact_hundredHz :
    ∃ p, getValue (buffer [hzName, hundredHz, noSmpName] [none]) hzName =
        .ok (some p) ∧
      ∃ before s after value,
        [hzName, hundredHz, noSmpName] = before ++ s :: after ∧
        (∀ t ∈ before, ¬ hzName.bytes ++ [61] <+: t.bytes) ∧
        s.bytes = hzName.bytes ++ 61 :: value.bytes ∧
        p = cells value ++ buffer after [none] ∧
        buffer [hzName, hundredHz, noSmpName] [none] =
          before.flatMap cells ++ (hzName.bytes ++ [61]).map some ++ p ∧
        takeString p = .ok value := by
  obtain ⟨pointer, hget, hnone, hsome⟩ := getValue_exact
    (show ∀ s ∈ [hzName, hundredHz, noSmpName], s.bytes ≠ [] by decide)
    hzName [none]
  cases pointer with
  | none =>
      have hmem : hundredHz ∈ [hzName, hundredHz, noSmpName] :=
        List.mem_cons_of_mem _ List.mem_cons_self
      exact absurd ⟨[49, 48, 48], rfl⟩ (hnone.mp rfl hundredHz hmem)
  | some p => exact ⟨p, hget, hsome p rfl⟩

end Search

/-! ## Settings -/

/-- A setting of the boot monitor. -/
structure Setting where
  key : CString
  value : CString
  noEqualsSign : (61 : UInt8) ∉ key.bytes
  deriving DecidableEq

/-- `key=value` -/
def Setting.text (setting : Setting) : CString where
  bytes := setting.key.bytes ++ 61 :: setting.value.bytes
  nulFree := by
    have hkey := setting.key.nulFree
    have hvalue := setting.value.nulFree
    simp [hkey, hvalue]

/-- The buffer that the boot monitor leaves. -/
def paramBuf (settings : List Setting) (spare : Pointer) : Pointer :=
  buffer (settings.map Setting.text) spare

/-- The value of a key: that of the first setting with it. -/
def lookup (settings : List Setting) (name : CString) : Option CString :=
  (settings.find? fun setting => setting.key = name).map Setting.value

section Settings

variable {name : CString} {settings : List Setting}

/-- The first `=` ends the key. -/
theorem prefix_key_iff {name key value : List UInt8}
    (hname : (61 : UInt8) ∉ name) (hkey : (61 : UInt8) ∉ key) :
    name ++ [61] <+: key ++ 61 :: value ↔ key = name := by
  induction name generalizing key with
  | nil =>
      cases key with
      | nil => simp
      | cons k key =>
          have hne : (61 : UInt8) ≠ k := fun heq =>
            hkey (heq ▸ List.mem_cons_self)
          simp [hne]
  | cons c name ih =>
      cases key with
      | nil =>
          have hne : c ≠ 61 := fun heq => hname (heq ▸ List.mem_cons_self)
          simp [hne]
      | cons k key =>
          have hrest := @ih key
            (fun hmem => hname (List.mem_cons_of_mem c hmem))
            fun hmem => hkey (List.mem_cons_of_mem k hmem)
          rw [List.cons_append, List.cons_append, List.cons_prefix_cons, hrest,
            List.cons.injEq, eq_comm]

theorem textBehind_text (hname : (61 : UInt8) ∉ name.bytes)
    (setting : Setting) :
    textBehind name setting.text =
      if setting.key = name then some setting.value else none := by
  have hbegins : name.bytes ++ [61] <+: setting.text.bytes ↔
      setting.key = name :=
    (prefix_key_iff hname setting.noEqualsSign).trans
      ⟨CString.ext_bytes, fun heq => heq ▸ rfl⟩
  unfold textBehind
  by_cases heq : setting.key = name
  · rw [if_pos (hbegins.mpr heq), if_pos heq]
    congr 1
    apply CString.ext_bytes
    subst heq
    simp [Setting.text]
  · rw [if_neg fun htext => heq (hbegins.mp htext), if_neg heq]

theorem findSome_texts (hname : (61 : UInt8) ∉ name.bytes)
    (settings : List Setting) :
    (settings.map Setting.text).findSome? (textBehind name) =
      lookup settings name := by
  induction settings with
  | nil => rfl
  | cons setting settings ih =>
      rw [List.map_cons, List.findSome?_cons, textBehind_text hname, lookup,
        List.find?_cons]
      by_cases heq : setting.key = name
      · rw [if_pos heq, decide_eq_true heq]
        rfl
      · rw [if_neg heq, decide_eq_false heq]
        exact ih

theorem text_ne_nil (settings : List Setting) :
    ∀ s ∈ settings.map Setting.text, s.bytes ≠ [] := by
  intro s hs
  obtain ⟨setting, -, rfl⟩ := List.mem_map.mp hs
  exact List.append_ne_nil_of_right_ne_nil _ (List.cons_ne_nil _ _)

end Settings

/-! ## What `cstart` makes of them -/

section Cstart

variable {kernel : Kernel} {get : CString → Except Fault (Option CString)}
  {values : CString → Option CString} {settings : List Setting} {g : Globals}

/-- `env_get` on a buffer of settings. -/
theorem envGet_paramBuf (settings : List Setting) (spare : Pointer)
    (name : CString) :
    envGet (paramBuf settings spare) name =
      .ok ((settings.map Setting.text).findSome? (textBehind name)) :=
  envGet_buffer (text_ne_nil settings) name spare

/-- `no_smp` is read behind the test of `no_apic`, and so the store of that
test is lost. -/
theorem readSmp_ok (hget : ∀ name, get name = .ok (values name))
    (g : Globals) :
    readSmp get g =
      .ok { g with configNoSmp := numberOr 0 (values noSmpName) } := by
  unfold readSmp
  rw [hget noSmpName]
  by_cases happic : g.configNoApic ≠ 0
  · simp only [if_pos happic, except_ok_bind, except_pure]
  · simp only [if_neg happic, except_ok_bind, except_pure]

theorem readApic_ok (hget : ∀ name, get name = .ok (values name))
    (g : Globals) :
    readApic get g =
      .ok { g with
        configNoApic := numberOr 1 (values noApicName)
        configApicTimerX := numberOr 1 (values apicTimerXName) } := by
  simp only [readApic, hget, except_ok_bind, except_pure]

theorem readWatchdog_ok (hget : ∀ name, get name = .ok (values name))
    (g : Globals) :
    readWatchdog get g =
      .ok { g with
        watchdogEnabled := numberOr g.watchdogEnabled (values watchdogName) } :=
  by simp only [readWatchdog, hget, except_ok_bind, except_pure]

/-- What `cstart` leaves in the globals, for a buffer that can be read. -/
theorem cstart_ok (hget : ∀ name, get name = .ok (values name)) :
    ∃ g', cstart kernel get g = .ok g' ∧
      g'.systemHz =
        UtcTime.cstart ((values hzName).map atoi32) kernel.defaultHz ∧
      g'.configNoApic =
        (if kernel.useApic then numberOr 1 (values noApicName)
          else g.configNoApic) ∧
      (kernel.configSmp = true →
        g'.configNoSmp = numberOr 0 (values noSmpName)) := by
  unfold cstart
  simp only [hget, except_ok_bind, readApic_ok hget, readWatchdog_ok hget,
    readSmp_ok hget, except_pure]
  cases kernel.useApic <;> cases kernel.useWatchdog <;>
    cases kernel.configSmp <;> simp

theorem numberOr_one_eq_zero {value : Option CString} :
    numberOr 1 value = 0 ↔ ∃ s, value = some s ∧ decimalNumber s = 0 := by
  cases value with
  | none => simp [numberOr]
  | some s => simp [numberOr, atoi32_eq_zero]

theorem numberOr_zero_eq_zero {value : Option CString} :
    numberOr 0 value = 0 ↔ ∀ s, value = some s → decimalNumber s = 0 := by
  cases value with
  | none => simp [numberOr]
  | some s => simp [numberOr, atoi32_eq_zero]

/-- All processors are started when neither variable stands in the way. -/
theorem startProcessors_smpInit :
    startProcessors kernel g = .smpInit ↔ kernel.configSmp = true ∧
      g.configNoApic = 0 ∧ g.configNoSmp = 0 := by
  unfold startProcessors
  cases kernel.configSmp with
  | false => simp
  | true =>
      by_cases happic : g.configNoApic = 0
      · by_cases hsmp : g.configNoSmp = 0
        · simp [happic, hsmp]
        · simp [happic, hsmp]
      · simp [happic]

/-- A frequency that passes the sanity check is taken as it is. -/
theorem cstart_frequency {value : Int} {standard : TickFrequency}
    (hlow : 2 ≤ value) (hhigh : value ≤ 50000) :
    ((UtcTime.cstart (some value) standard).hz : Int) = value := by
  have hrange : 2 ≤ value.toNat ∧ value.toNat ≤ 50000 := by omega
  rw [UtcTime.cstart, dif_pos hrange]
  exact Int.toNat_of_nonneg (by omega)

theorem cstart_frequency_default {value : Int} {standard : TickFrequency}
    (h : ¬ (2 ≤ value ∧ value ≤ 50000)) :
    UtcTime.cstart (some value) standard = standard := by
  have hrange : ¬ (2 ≤ value.toNat ∧ value.toNat ≤ 50000) := by omega
  rw [UtcTime.cstart, dif_neg hrange]

end Cstart

end OsLabs.Lab3.BootParameters
