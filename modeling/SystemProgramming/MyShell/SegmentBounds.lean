import SystemProgramming.MyShell.LaunchFailure
import SystemProgramming.MyShell.Transitions
import SystemProgramming.Phase1.Shell

/-!
The bounds of `segments` and `argv` in the phase 3 shell, and what they are good
for in `launch_pipeline`. Both scanners are written down once more with every
store they make, those of a line that is refused in the end too.
-/

namespace SystemProgramming.MyShell

open SystemProgramming.CLib SystemProgramming.Library
open SystemProgramming.Phase1 (Store storesOf storesOf_inBounds words_storesOf)

/-! ### The stores of `parse_line` -/

/-- A store into `segments`: the index and the text. -/
abbrev SegmentStore := Nat × CString

/-- The loop of `parse_line`: its stores, and `start` and `nseg` behind it, unless it returns
-1. -/
def parseLineLoopStores : CString → Bool → Bool → CString → Nat →
    List SegmentStore × Option (CString × Nat)
  | [], _, _, cur, nseg => ([], some (cur, nseg))
  | c :: p, inSingle, inDouble, cur, nseg =>
      if c = '\'' ∧ ¬inDouble then
        parseLineLoopStores p (!inSingle) inDouble (cur ++ [c]) nseg
      else if c = '"' ∧ ¬inSingle then
        parseLineLoopStores p inSingle (!inDouble) (cur ++ [c]) nseg
      else if ¬inSingle ∧ ¬inDouble ∧ c = '|' then
        let segment := trimWs cur
        if segment = [] ∨ '&' ∈ segment then ([(nseg, segment)], none)
        else if nseg + 1 ≥ MAXCMDS then ([(nseg, segment)], none)
        else
          let (stores, found) := parseLineLoopStores p inSingle inDouble [] (nseg + 1)
          ((nseg, segment) :: stores, found)
      else parseLineLoopStores p inSingle inDouble (cur ++ [c]) nseg

/-- Behind the loop: the stores, and `nseg` and `bg` unless -1 is returned. -/
def parseLineLastStores (start : CString) (nseg : Nat) :
    List SegmentStore × Option (Nat × Bool) :=
  let start := trimWs start
  if start = [] then ([], if nseg = 0 then some (0, false) else none)
  else if start.getLast? = some '&' then
    let start := trimWs start.dropLast
    if start = [] ∨ '&' ∈ start then ([], none) else ([(nseg, start)], some (nseg + 1, true))
  else if '&' ∈ start then ([], none)
  else ([(nseg, start)], some (nseg + 1, false))

/-- `parse_line`: the stores into `segments`, and `nseg` and `bg` if 0 is returned. -/
def parseLineStores (buf : CString) : List SegmentStore × Option (Nat × Bool) :=
  let (stores, found) := parseLineLoopStores (cutNewline buf) false false [] 0
  match found with
  | none => (stores, none)
  | some (start, nseg) =>
      let (last, result) := parseLineLastStores start nseg
      (stores ++ last, result)

/-- The texts stored from the index `nseg` on, one behind the other. -/
def storedFrom (nseg : Nat) (texts : List CString) : List SegmentStore :=
  (texts.zipIdx nseg).map Prod.swap

/-- The loop stores the segments it cuts off in order, below the capacity. -/
theorem parseLineLoopStores_spec (p : CString) (inSingle inDouble : Bool) (cur : CString)
    (segments : List CString) (hroom : segments.length < MAXCMDS) :
    ∃ texts, (parseLineLoopStores p inSingle inDouble cur segments.length).1 =
        storedFrom segments.length texts ∧
      segments.length + texts.length ≤ MAXCMDS ∧
      (parseLineLoopStores p inSingle inDouble cur segments.length).2 =
        (parseLineLoop p inSingle inDouble cur segments).map
          (fun found => (found.1, found.2.length)) ∧
      ∀ found ∈ parseLineLoop p inSingle inDouble cur segments,
        found.2 = segments ++ texts ∧ found.2.length < MAXCMDS := by
  induction p generalizing inSingle inDouble cur segments with
  | nil =>
      refine ⟨[], rfl, Nat.le_of_lt hroom, rfl, fun found hfound => ?_⟩
      obtain rfl := Option.some.inj hfound
      exact ⟨(List.append_nil _).symm, hroom⟩
  | cons c p ih =>
      rw [parseLineLoopStores, parseLineLoop]
      split
      · exact ih _ _ _ _ hroom
      split
      · exact ih _ _ _ _ hroom
      split
      · dsimp only
        split
        · exact ⟨[trimWs cur], rfl, hroom, rfl, fun _ h => by cases h⟩
        split
        · exact ⟨[trimWs cur], rfl, hroom, rfl, fun _ h => by cases h⟩
        · next hfull =>
            have hlen : (segments ++ [trimWs cur]).length = segments.length + 1 := by simp
            obtain ⟨texts, hstores, hle, hfound, hall⟩ :=
              ih inSingle inDouble [] (segments ++ [trimWs cur]) (by omega)
            rw [hlen] at hstores hle hfound
            refine ⟨trimWs cur :: texts, ?_, ?_, hfound, fun found h => ?_⟩
            · rw [hstores]
              rfl
            · rw [List.length_cons]
              omega
            · obtain ⟨heq, hlt⟩ := hall found h
              exact ⟨by rw [heq, List.append_assoc, List.singleton_append], hlt⟩
      · exact ih _ _ _ _ hroom

/-- What is stored behind the loop takes the next index. -/
theorem parseLineLastStores_spec (start : CString) (segments : List CString) :
    ∃ texts, (parseLineLastStores start segments.length).1 =
        storedFrom segments.length texts ∧ texts.length ≤ 1 ∧
      (parseLineLastStores start segments.length).2 =
        (parseLineLast start segments).map (fun found => (found.1.length, found.2)) ∧
      ∀ found ∈ parseLineLast start segments, found.1 = segments ++ texts := by
  rw [parseLineLastStores, parseLineLast]
  dsimp only
  split
  · refine ⟨[], rfl, Nat.zero_le 1, ?_, fun found hfound => ?_⟩
    · by_cases hnil : segments = []
      · simp [hnil]
      · simp [hnil]
    · split at hfound
      · next hnil =>
          obtain rfl := Option.some.inj hfound
          rw [hnil, List.append_nil]
      · cases hfound
  split
  · split
    · exact ⟨[], rfl, Nat.zero_le 1, rfl, fun _ h => by cases h⟩
    · refine ⟨[_], rfl, Nat.le_refl 1, by simp, fun found hfound => ?_⟩
      obtain rfl := Option.some.inj hfound
      rfl
  split
  · exact ⟨[], rfl, Nat.zero_le 1, rfl, fun _ h => by cases h⟩
  · refine ⟨[_], rfl, Nat.le_refl 1, by simp, fun found hfound => ?_⟩
    obtain rfl := Option.some.inj hfound
    rfl

theorem mem_storedFrom {nseg : Nat} {texts : List CString} {store : SegmentStore}
    (h : store ∈ storedFrom nseg texts) : store.1 < nseg + texts.length := by
  obtain ⟨p, hp, rfl⟩ := List.mem_map.mp h
  rw [Nat.add_comm]
  exact List.snd_lt_of_mem_zipIdx hp

theorem storedFrom_append (nseg : Nat) (texts texts' : List CString) :
    storedFrom nseg texts ++ storedFrom (nseg + texts.length) texts' =
      storedFrom nseg (texts ++ texts') := by
  rw [storedFrom, storedFrom, storedFrom, ← List.map_append, List.zipIdx_append,
    Nat.add_comm nseg]

/-- **The stores of `parse_line`.** They go to the indices from 0 on, one behind the other and
below the capacity, and what is handed out in the end is what was stored. -/
theorem parseLineStores_spec (buf : CString) :
    ∃ texts, (parseLineStores buf).1 = storedFrom 0 texts ∧ texts.length ≤ MAXCMDS ∧
      (parseLineStores buf).2 =
        (parseLine buf).map (fun found => (found.1.length, found.2)) ∧
      ∀ found ∈ parseLine buf, found.1 = texts := by
  obtain ⟨texts, hstores, hle, hfound, hall⟩ :=
    parseLineLoopStores_spec (cutNewline buf) false false [] [] (by decide)
  rw [List.length_nil] at hstores hfound
  rw [List.length_nil, Nat.zero_add] at hle
  rw [parseLineStores, parseLine]
  cases hloop : parseLineLoop (cutNewline buf) false false [] [] with
  | none =>
      rw [hloop] at hfound
      dsimp only
      rw [hstores, hfound]
      exact ⟨texts, rfl, hle, rfl, fun _ h => by cases h⟩
  | some found =>
      obtain ⟨start, segments⟩ := found
      obtain ⟨heq, hlt⟩ := hall _ hloop
      obtain ⟨last, hlast, hone, hresult, hall'⟩ := parseLineLastStores_spec start segments
      rw [hloop] at hfound
      dsimp only
      rw [hstores, hfound]
      dsimp only [Option.map_some, Option.bind_some]
      rw [List.nil_append] at heq
      dsimp only at heq hlt
      subst heq
      refine ⟨segments ++ last, ?_, ?_, hresult, hall'⟩
      · rw [hlast, ← storedFrom_append, Nat.zero_add]
      · rw [List.length_append]
        omega

/-! ### The stores of `parseline` -/

/-- The loop of `parseline` and the store of NULL behind it. -/
def argvStoresLoop : Nat → CString → Nat → List Store
  | 0, _, argc => [(argc, none)]
  | fuel + 1, p, argc =>
      match p.dropWhile isspace with
      | [] => [(argc, none)]
      | c :: p =>
          (argc, some (wordAt c p).1) ::
            if argc + 1 ≥ MAXARGS - 1 then [(argc + 1, none)]
            else argvStoresLoop fuel (wordAt c p).2 (argc + 1)

/-- The stores of `parseline` into `argv`. -/
def argvStores (buf : CString) : List Store :=
  argvStoresLoop (cutNewline buf).length (cutNewline buf) 0

theorem argvStoresLoop_eq (fuel : Nat) (p : CString) (argv : List CString)
    (hroom : argv.length < MAXARGS - 1) :
    ∃ words, argvStoresLoop fuel p argv.length = storesOf argv.length words ∧
      parselineLoop fuel p argv = argv ++ words ∧ argv.length + words.length ≤ MAXARGS - 1 := by
  induction fuel generalizing p argv with
  | zero => exact ⟨[], rfl, (List.append_nil _).symm, Nat.le_of_lt hroom⟩
  | succ fuel ih =>
      rw [argvStoresLoop, parselineLoop]
      cases p.dropWhile isspace with
      | nil => exact ⟨[], rfl, (List.append_nil _).symm, Nat.le_of_lt hroom⟩
      | cons c t =>
          have hlen : (argv ++ [(wordAt c t).1]).length = argv.length + 1 := by simp
          dsimp only
          rw [hlen]
          split
          · exact ⟨[(wordAt c t).1], rfl, rfl, hroom⟩
          · next hmore =>
              obtain ⟨words, hstores, hwords, hle⟩ :=
                ih (wordAt c t).2 (argv ++ [(wordAt c t).1]) (by omega)
              rw [hlen] at hstores hle
              refine ⟨(wordAt c t).1 :: words, ?_, ?_, ?_⟩
              · rw [hstores]
                rfl
              · rw [hwords, List.append_assoc, List.singleton_append]
              · rw [List.length_cons]
                omega

/-- **The stores of `parseline`** are those of the words it returns, which leave room for the
NULL. -/
theorem argvStores_eq (buf : CString) :
    argvStores buf = storesOf 0 (parseline buf) ∧ (parseline buf).length ≤ MAXARGS - 1 := by
  obtain ⟨words, hstores, hwords, hle⟩ :=
    argvStoresLoop_eq (cutNewline buf).length (cutNewline buf) [] (by decide)
  rw [List.nil_append] at hwords
  rw [List.length_nil, Nat.zero_add] at hle
  rw [argvStores, parseline, hwords]
  exact ⟨hstores, hle⟩

/-! ### In `launch_pipeline` -/

/-- `parseline` finds a word in the segment, and stores in `argv` only. -/
structure Runnable (segment : CString) : Prop where
  words : 1 ≤ (parseline segment).length
  room : (parseline segment).length ≤ MAXARGS - 1
  stores : ∀ store ∈ argvStores segment, store.1 < MAXARGS

theorem runnable_of_ne_nil {segment : CString} (h : parseline segment ≠ []) :
    Runnable segment := by
  obtain ⟨hstores, hle⟩ := argvStores_eq segment
  refine ⟨List.length_pos_of_ne_nil h, hle, ?_⟩
  rw [hstores, storesOf_inBounds, Nat.zero_add]
  exact Nat.lt_of_le_of_lt hle (by decide)

/-- With `pipe` and `fork` succeeding a free slot is taken for the job, and the job records the
children of all stages, whatever the array `pids` held before. -/
theorem launchPipeline_recorded {segments : List CString}
    (hsegs : ∀ s ∈ segments, parseline s ≠ []) (hne : segments ≠ []) (o : LaunchOracle)
    (hpipes : ∀ j, o.pipeFails j = false) (hforks : ∀ j, o.forkFails j = false)
    (table : JobTable) (fds : FdTable) (bg : Bool) (cmdline : CString) (stack : Nat → Int) :
    let r := launchPipeline o table fds (.enter segments bg cmdline stack)
    ((∃ i, (table.jobs i).used = false) → ∃ job, r.added = some job) ∧
      ∀ job, r.added = some job →
        (r.table.jobs job).recorded = (List.range segments.length).map fun j => (o.pid j : Int) := by
  obtain ⟨fds', f', hloop, -, -, hnseg, hpids⟩ :=
    launchLoop_done o hsegs fds (f := .enter segments bg cmdline stack) (Nat.zero_add _)
      (fun j _ _ => hpipes j) (.inl hne) []
  have hrun : launchPipeline o table fds (.enter segments bg cmdline stack) =
      launchFinish table fds' f' ([] ++ forkedFrom o
        (settledPgid o (.enter segments bg cmdline stack)) 0 segments.length) := by
    have hsegments : (LaunchFrame.enter segments bg cmdline stack).segments = segments := rfl
    rw [launchPipeline, hsegments, hloop]
    rfl
  dsimp only
  rw [hrun]
  rcases launchFinish_cases table fds' f' _ with
    ⟨hfull, heq⟩ | ⟨i, t, -, -, -, -, -, hrecorded, heq⟩
  · rw [heq]
    constructor
    · rintro ⟨i, hfree⟩
      exact absurd (hfree.symm.trans (hfull i)) Bool.false_ne_true
    · rintro job ⟨⟩
  · rw [heq]
    refine ⟨fun _ => ⟨i, rfl⟩, fun job hjob => ?_⟩
    obtain rfl := Option.some.inj hjob
    rw [hrecorded, hnseg]
    refine List.map_congr_left fun j hj => ?_
    rw [hpids j, if_pos ⟨Nat.zero_le j, List.mem_range.mp hj⟩]
    exact o.fork_of_ok (hforks j)

/-- **Accepted segments are runnable.** `parse_line` stores below `MAXCMDS` only; each segment
of a line it accepts has a word and fits into `argv`. So no run of the shell skips a stage, and
without a failing call a launch that finds a free slot has its job, which is given the pids of
its children and nothing else. -/
theorem segments_runnable (line : CString) :
    (∀ store ∈ (parseLineStores line).1, store.1 < MAXCMDS) ∧
    (∀ segments bg, parseLine line = some (segments, bg) →
      parseLineStores line = (storedFrom 0 segments, some (segments.length, bg)) ∧
        segments.length ≤ MAXCMDS ∧ ∀ segment ∈ segments, Runnable segment) ∧
    (∀ s, Reachable Shell.step anyStep {} s → ∀ f segment, s.pc = .launch f →
      f.segments[f.i]? = some segment → parseline segment ≠ []) ∧
    ∀ segments bg cmdline, eval line = .launch segments bg cmdline →
      ∀ (o : LaunchOracle) (table : JobTable) (fds : FdTable) (stack : Nat → Int),
        (∀ j, o.pipeFails j = false) → (∀ j, o.forkFails j = false) →
        let r := launchPipeline o table fds (.enter segments bg cmdline stack)
        ((∃ i, (table.jobs i).used = false) → ∃ job, r.added = some job) ∧
          ∀ job, r.added = some job → (r.table.jobs job).recorded =
            (List.range segments.length).map fun j => (o.pid j : Int) := by
  obtain ⟨texts, hstores, hroom, hresult, htexts⟩ := parseLineStores_spec line
  refine ⟨fun store hstore => ?_, fun segments bg hparse => ?_, fun s hs f segment hpc hf => ?_,
    fun segments bg cmdline heval o table fds stack hpipes hforks => ?_⟩
  · rw [hstores] at hstore
    have hlt := mem_storedFrom hstore
    omega
  · obtain ⟨hsegs, hlen⟩ := parseLine_runnable hparse
    obtain rfl : segments = texts := htexts _ hparse
    rw [hparse] at hresult
    exact ⟨Prod.ext hstores hresult, hlen, fun segment hmem =>
      runnable_of_ne_nil (hsegs segment hmem)⟩
  · have hconsistent : Shell.Consistent s :=
      hs.invariant .init fun _ _ _ h _ hstep => h.step (Shell.step_transition hstep)
    exact (hconsistent.frame f hpc).runnable segment (List.mem_of_getElem? hf)
  · obtain ⟨hparse, hne⟩ := eval_launch heval
    exact launchPipeline_recorded (parseLine_runnable hparse).1 hne o hpipes hforks table fds bg
      cmdline stack

end SystemProgramming.MyShell
