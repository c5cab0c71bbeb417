import SystemProgramming.MyShell.Buffer
import SystemProgramming.MyShell.Pieces

/-!
Commands written with every argument between double quotes, and what the two
scanners make of them. `parse_line` reads its quotes anywhere, `parseline`
only where a word begins; on such a text the two readings agree.
-/

namespace SystemProgramming.MyShell

open SystemProgramming.CLib

/-! ### Writing commands down -/

def quoted (arg : CString) : CString := '"' :: (arg ++ ['"'])

/-- The arguments of a command behind its first, each with a blank in front. -/
def moreArgs (args : List CString) : CString := args.flatMap fun arg => ' ' :: quoted arg

/-- The arguments joined by one blank. -/
def renderCommand : List CString → CString
  | [] => []
  | arg :: args => quoted arg ++ moreArgs args

/-- The commands behind the first, each with ` | ` in front. -/
def morePipes (cmds : List (List CString)) : CString :=
  cmds.flatMap fun cmd => ' ' :: '|' :: ' ' :: renderCommand cmd

def renderPipeline : List (List CString) → CString
  | [] => []
  | cmd :: cmds => renderCommand cmd ++ morePipes cmds

def ampersand (bg : Bool) : CString := if bg then [' ', '&'] else []

def renderLine (cmds : List (List CString)) (bg : Bool) : CString :=
  renderPipeline cmds ++ ampersand bg ++ ['\n']

/-- An argument that may stand between double quotes. -/
def Quotable (arg : CString) : Prop := ∀ c ∈ arg, c ≠ '\n' ∧ c ≠ '"' ∧ c ≠ '&'

instance (arg : CString) : Decidable (Quotable arg) := List.decidableBAll _ arg

/-- The commands that `parse_line` and `parseline` have room for. -/
structure Writable (cmds : List (List CString)) : Prop where
  nonempty : cmds ≠ []
  room : cmds.length ≤ MAXCMDS
  args_nonempty : ∀ cmd ∈ cmds, cmd ≠ []
  args_room : ∀ cmd ∈ cmds, cmd.length ≤ MAXARGS - 1
  quotable : ∀ cmd ∈ cmds, ∀ arg ∈ cmd, Quotable arg

variable {arg p s : CString} {args argv : List CString} {cmds : List (List CString)}

theorem mem_quoted {c : Char} : c ∈ quoted arg ↔ c = '"' ∨ c ∈ arg := by
  simp only [quoted, List.mem_cons, List.mem_append, List.not_mem_nil, or_false]
  tauto

theorem mem_renderCommand {c : Char} (hc : c ∈ renderCommand args) :
    c = ' ' ∨ c = '"' ∨ ∃ arg ∈ args, c ∈ arg := by
  cases args with
  | nil => simp [renderCommand] at hc
  | cons arg args =>
      simp only [renderCommand, moreArgs, List.mem_append, mem_quoted, List.mem_flatMap,
        List.mem_cons] at hc ⊢
      rcases hc with (hc | hc) | ⟨other, hother, hc | hc | hc⟩
      · exact .inr (.inl hc)
      · exact .inr (.inr ⟨arg, .inl rfl, hc⟩)
      · exact .inl hc
      · exact .inr (.inl hc)
      · exact .inr (.inr ⟨other, .inr hother, hc⟩)

theorem notMem_renderCommand {c : Char} (hblank : c ≠ ' ') (hquote : c ≠ '"')
    (hargs : ∀ arg ∈ args, c ∉ arg) : c ∉ renderCommand args := by
  intro hmem
  rcases mem_renderCommand hmem with h | h | ⟨arg, harg, h⟩
  · exact hblank h
  · exact hquote h
  · exact hargs arg harg h

theorem newline_notMem_renderCommand (hquotable : ∀ arg ∈ args, Quotable arg) :
    '\n' ∉ renderCommand args :=
  notMem_renderCommand (by decide) (by decide) fun arg harg h => (hquotable arg harg _ h).1 rfl

/-- A command ends with the quote of its last argument. -/
theorem exists_renderCommand (hargs : args ≠ []) : ∃ s, renderCommand args = s ++ ['"'] := by
  cases args with
  | nil => exact absurd rfl hargs
  | cons arg args =>
      rcases args.eq_nil_or_concat with rfl | ⟨init, lastArg, rfl⟩
      · exact ⟨'"' :: arg, by simp [renderCommand, moreArgs, quoted]⟩
      · exact ⟨quoted arg ++ moreArgs init ++ ' ' :: '"' :: lastArg, by
          simp [renderCommand, moreArgs, quoted]⟩

/-! ### Words -/

theorem wordAt_quoted (harg : '"' ∉ arg) (p : CString) :
    wordAt '"' (arg ++ '"' :: p) = (arg, p) := by
  have htest : ∀ c ∈ arg, (c ≠ '"' : Bool) = true := by
    intro c hc
    exact decide_eq_true fun heq => harg (heq ▸ hc)
  rw [wordAt, if_pos (.inl rfl), List.takeWhile_append_of_pos htest,
    List.dropWhile_append_of_pos htest]
  simp

theorem parselineLoop_blank (fuel : Nat) (p : CString) (argv : List CString) :
    parselineLoop fuel (' ' :: p) argv = parselineLoop fuel p argv := by
  cases fuel with
  | zero => rfl
  | succ fuel => rw [parselineLoop, parselineLoop, List.dropWhile_cons_of_pos rfl]

/-- The loop of `parseline` reads one argument after the other. -/
theorem parselineLoop_moreArgs {fuel : Nat} (hquotable : ∀ arg ∈ args, '"' ∉ arg)
    (hfuel : args.length ≤ fuel) (hroom : argv.length + args.length ≤ MAXARGS - 1) :
    parselineLoop fuel (moreArgs args) argv = argv ++ args := by
  induction args generalizing fuel argv with
  | nil => cases fuel <;> simp [parselineLoop, moreArgs]
  | cons arg args ih =>
      obtain ⟨fuel, rfl⟩ : ∃ n, fuel = n + 1 := ⟨fuel - 1, by simp at hfuel; omega⟩
      have hmore : moreArgs (arg :: args) = ' ' :: '"' :: (arg ++ '"' :: moreArgs args) := by
        simp [moreArgs, quoted]
      have hspace : isspace '"' = false := rfl
      rw [hmore, parselineLoop_blank, parselineLoop, List.dropWhile_cons_of_neg (by simp [hspace])]
      dsimp only
      rw [wordAt_quoted (hquotable arg List.mem_cons_self)]
      split
      · -- the vector is full, and that was the last argument
        next hfull =>
          have hnil : args = [] := by
            apply List.eq_nil_of_length_eq_zero
            simp only [List.length_append, List.length_cons, List.length_nil] at hfull hroom
            omega
          rw [hnil]
      · rw [ih (fun other hother => hquotable other (List.mem_cons_of_mem _ hother))
          (by simpa using hfuel) (by simp at hroom ⊢; omega), List.append_assoc]
        rfl

theorem length_le_moreArgs (args : List CString) : args.length ≤ (moreArgs args).length := by
  induction args with
  | nil => exact Nat.zero_le _
  | cons arg args ih =>
      rw [moreArgs, List.flatMap_cons, ← moreArgs, List.length_append, List.length_cons,
        List.length_cons]
      omega

theorem parseline_renderCommand (hquotable : ∀ arg ∈ args, Quotable arg)
    (hroom : args.length ≤ MAXARGS - 1) : parseline (renderCommand args) = args := by
  rw [parseline, cutNewline_eq_self (newline_notMem_renderCommand hquotable)]
  cases args with
  | nil => rfl
  | cons arg args =>
      have hlength : (arg :: args).length ≤ (renderCommand (arg :: args)).length := by
        have hmore := length_le_moreArgs args
        simp only [renderCommand, quoted, List.length_append, List.length_cons]
        omega
      have hloop := @parselineLoop_moreArgs _ [] _
        (fun other hother hmem => (hquotable other hother '"' hmem).2.1 rfl) hlength
        (by simpa using hroom)
      exact (parselineLoop_blank _ _ _).symm.trans hloop

/-! ### Segments -/

theorem trimWs_append_blank (s : CString) : trimWs (s ++ [' ']) = trimWs s :=
  trimWs_append_of_blanks (fun _ hd => List.mem_singleton.mp hd ▸ rfl) s

theorem trimWs_eq_self {t u : CString} {c d : Char} (hfront : s = c :: t) (hback : s = u ++ [d])
    (hc : isspace c = false) (hd : isspace d = false) : trimWs s = s := by
  have hdrop : s.dropWhile isspace = s := by
    rw [hfront]
    exact List.dropWhile_cons_of_neg (by simp [hc])
  rw [trimWs, hdrop, hback]
  exact List.rdropWhile_concat_neg _ _ _ (by simp [hd])

theorem renderCommand_eq_cons (arg : CString) (args : List CString) :
    renderCommand (arg :: args) = '"' :: (arg ++ '"' :: moreArgs args) := by
  simp [renderCommand, quoted]

theorem trimWs_renderCommand (args : List CString) :
    trimWs (renderCommand args) = renderCommand args := by
  cases args with
  | nil => rfl
  | cons arg args =>
      obtain ⟨s, hs⟩ := exists_renderCommand (List.cons_ne_nil arg args)
      exact trimWs_eq_self (renderCommand_eq_cons arg args) hs rfl rfl

/-- Text that the loop of `parse_line` passes over and is outside of quotes again. -/
def Plain (s : CString) : Prop := ∀ p cur segments,
  parseLineLoop (s ++ p) false false cur segments = parseLineLoop p false false (cur ++ s) segments

theorem plain_nil : Plain [] := by
  intro p cur segments
  rw [List.nil_append, List.append_nil]

theorem Plain.append {t : CString} (hs : Plain s) (ht : Plain t) : Plain (s ++ t) := by
  intro p cur segments
  rw [List.append_assoc, hs, ht, List.append_assoc]

theorem plain_singleton {c : Char} (hsingle : c ≠ '\'') (hdouble : c ≠ '"') (hbar : c ≠ '|') :
    Plain [c] := by
  intro p cur segments
  rw [List.singleton_append, parseLineLoop, if_neg fun h => hsingle h.1,
    if_neg fun h => hdouble h.1, if_neg fun h => hbar h.2.2]

/-- Between double quotes everything else is passed over, bars and single quotes too. -/
theorem parseLineLoop_inDouble (harg : '"' ∉ arg) (p cur : CString) (segments : List CString) :
    parseLineLoop (arg ++ p) false true cur segments =
      parseLineLoop p false true (cur ++ arg) segments := by
  induction arg generalizing cur with
  | nil => rw [List.nil_append, List.append_nil]
  | cons c arg ih =>
      obtain ⟨hc, harg⟩ := not_or.mp (mt List.mem_cons.mpr harg)
      rw [List.cons_append, parseLineLoop, if_neg fun h => h.2 rfl, if_neg fun h => hc h.1.symm,
        if_neg fun h => h.2.1 rfl, ih harg, List.append_assoc]
      rfl

theorem plain_quoted (harg : '"' ∉ arg) : Plain (quoted arg) := by
  intro p cur segments
  have hsplit : quoted arg ++ p = '"' :: (arg ++ '"' :: p) := by simp [quoted]
  have hopen : ¬ ('"' = '\'' ∧ ¬ (false = true)) := fun h => absurd h.1 (by decide)
  rw [hsplit, parseLineLoop, if_neg hopen, if_pos ⟨rfl, Bool.false_ne_true⟩, Bool.not_false,
    parseLineLoop_inDouble harg, parseLineLoop, if_neg fun h => absurd h.1 (by decide),
    if_pos ⟨rfl, Bool.false_ne_true⟩, Bool.not_true]
  simp [quoted]

theorem plain_renderCommand (hquotable : ∀ arg ∈ args, '"' ∉ arg) : Plain (renderCommand args) := by
  have hmore (args : List CString) (hq : ∀ arg ∈ args, '"' ∉ arg) : Plain (moreArgs args) := by
    induction args with
    | nil => exact plain_nil
    | cons arg args ih =>
        have hblank : Plain [' '] := plain_singleton (by decide) (by decide) (by decide)
        exact (hblank.append (plain_quoted (hq arg List.mem_cons_self))).append
          (ih fun other hother => hq other (List.mem_cons_of_mem _ hother))
  cases args with
  | nil => exact plain_nil
  | cons arg args =>
      exact (plain_quoted (hquotable arg List.mem_cons_self)).append
        (hmore args fun other hother => hquotable other (List.mem_cons_of_mem _ hother))

/-! ### Lines -/

theorem parseLineLoop_bar {p cur : CString} {segments : List CString} (hcur : trimWs cur ≠ [])
    (hamp : '&' ∉ trimWs cur) (hroom : segments.length + 1 < MAXCMDS) :
    parseLineLoop ('|' :: p) false false cur segments =
      parseLineLoop p false false [] (segments ++ [trimWs cur]) := by
  rw [parseLineLoop, if_neg fun h => absurd h.1 (by decide),
    if_neg fun h => absurd h.1 (by decide), if_pos ⟨Bool.false_ne_true, Bool.false_ne_true, rfl⟩]
  dsimp only
  rw [if_neg (not_or.mpr ⟨hcur, hamp⟩), if_neg (Nat.not_le.mpr hroom)]

/-- White space that the loop carries in front of a segment. -/
def Blank (cur : CString) : Prop := ∀ s, trimWs (cur ++ s) = trimWs s

theorem ne_nil_renderCommand (hargs : args ≠ []) : renderCommand args ≠ [] := by
  obtain ⟨s, hs⟩ := exists_renderCommand hargs
  simp [hs]

theorem amp_notMem_renderCommand (hquotable : ∀ arg ∈ args, Quotable arg) :
    '&' ∉ renderCommand args :=
  notMem_renderCommand (by decide) (by decide) fun arg harg h => (hquotable arg harg _ h).2.2 rfl

theorem parseLineLast_renderCommand {cur : CString} {segments : List CString} {bg : Bool}
    (hargs : args ≠ []) (hquotable : ∀ arg ∈ args, Quotable arg) (hcur : Blank cur) :
    parseLineLast (cur ++ renderCommand args ++ ampersand bg) segments =
      some (segments ++ [renderCommand args], bg) := by
  have hne := ne_nil_renderCommand hargs
  have hamp := amp_notMem_renderCommand hquotable
  have htrim := trimWs_renderCommand args
  obtain ⟨s, hs⟩ := exists_renderCommand hargs
  rw [List.append_assoc, parseLineLast, hcur]
  cases bg with
  | false =>
      have hlast : (renderCommand args).getLast? ≠ some '&' := by
        rw [hs, List.getLast?_concat]
        decide
      rw [ampersand, if_neg Bool.false_ne_true, List.append_nil, htrim]
      dsimp only
      rw [if_neg hne, if_neg hlast, if_neg hamp]
  | true =>
      have hkept : trimWs (renderCommand args ++ [' ', '&']) =
          renderCommand args ++ [' ', '&'] := by
        obtain ⟨arg, args, rfl⟩ := List.exists_cons_of_ne_nil hargs
        exact trimWs_eq_self (u := renderCommand (arg :: args) ++ [' '])
          (by rw [renderCommand_eq_cons, List.cons_append]) (by simp) rfl (d := '&') rfl
      have hlast : (renderCommand args ++ [' ', '&']).getLast? = some '&' := by
        rw [List.getLast?_append]
        rfl
      have hdrop : (renderCommand args ++ [' ', '&']).dropLast = renderCommand args ++ [' '] := by
        rw [List.dropLast_append_of_ne_nil (by simp)]
        rfl
      rw [ampersand, if_pos rfl, hkept]
      dsimp only
      rw [if_neg (by simp), if_pos hlast, hdrop, trimWs_append_blank, htrim,
        if_neg (not_or.mpr ⟨hne, hamp⟩)]

theorem parseLine_pipes {cur : CString} {segments : List CString} {bg : Bool}
    {cmd : List CString} (hcur : Blank cur) (hargs : ∀ c ∈ cmd :: cmds, c ≠ [])
    (hquotable : ∀ c ∈ cmd :: cmds, ∀ arg ∈ c, Quotable arg)
    (hroom : segments.length + (cmd :: cmds).length ≤ MAXCMDS) :
    ((parseLineLoop (renderCommand cmd ++ morePipes cmds ++ ampersand bg) false false cur
        segments).bind fun (start, segments) => parseLineLast start segments) =
      some (segments ++ (cmd :: cmds).map renderCommand, bg) := by
  have hcmd := hargs cmd List.mem_cons_self
  have hquote := hquotable cmd List.mem_cons_self
  have hplain : Plain (renderCommand cmd) :=
    plain_renderCommand fun arg harg hmem => (hquote arg harg '"' hmem).2.1 rfl
  have hblank : Plain [' '] := plain_singleton (by decide) (by decide) (by decide)
  induction cmds generalizing cmd cur segments with
  | nil =>
      have hamp : Plain (ampersand bg) := by
        cases bg with
        | false => exact plain_nil
        | true => exact hblank.append (plain_singleton (by decide) (by decide) (by decide))
      have hpass := (hplain.append hamp) [] cur segments
      rw [List.append_nil] at hpass
      rw [morePipes, List.flatMap_nil, List.append_nil, hpass, parseLineLoop, Option.bind_some,
        ← List.append_assoc]
      exact parseLineLast_renderCommand hcmd hquote hcur
  | cons next cmds ih =>
      have htext : renderCommand cmd ++ morePipes (next :: cmds) ++ ampersand bg =
          renderCommand cmd ++ [' '] ++ ('|' :: ([' '] ++ (renderCommand next ++ morePipes cmds ++
            ampersand bg))) := by
        simp [morePipes]
      have htrim : trimWs (cur ++ (renderCommand cmd ++ [' '])) = renderCommand cmd := by
        rw [hcur, trimWs_append_blank, trimWs_renderCommand]
      -- behind the bar a blank is left over, with which the next segment starts
      have hmore : ∀ c ∈ next :: cmds, c ∈ cmd :: next :: cmds := fun c => List.mem_cons_of_mem _
      have hnext := hmore next List.mem_cons_self
      simp only [List.length_cons] at hroom
      rw [htext, hplain.append hblank,
        parseLineLoop_bar (by rw [htrim]; exact ne_nil_renderCommand hcmd)
          (by rw [htrim]; exact amp_notMem_renderCommand hquote) (by omega), hblank, htrim,
        ih (fun s => rfl) (fun c hc => hargs c (hmore c hc)) (fun c hc => hquotable c (hmore c hc))
          (by simp only [List.length_append, List.length_cons, List.length_nil]; omega)
          (hargs next hnext) (hquotable next hnext)
          (plain_renderCommand fun arg harg hmem =>
            (hquotable next hnext arg harg '"' hmem).2.1 rfl)]
      simp

/-- `parse_line` on strings gives the commands back. -/
theorem parseLine_renderLine (hw : Writable cmds) (bg : Bool) :
    parseLine (renderLine cmds bg) = some (cmds.map renderCommand, bg) := by
  obtain ⟨cmd, cmds, rfl⟩ := List.exists_cons_of_ne_nil hw.nonempty
  have hcut : cutNewline (renderLine (cmd :: cmds) bg) =
      renderCommand cmd ++ morePipes cmds ++ ampersand bg := by
    have hmore (c : Char) (hc : c ∈ morePipes cmds) : c = ' ' ∨ c = '|' ∨
        ∃ cmd ∈ cmds, c ∈ renderCommand cmd := by
      simp only [morePipes, List.mem_flatMap, List.mem_cons] at hc
      tauto
    have hamp : '\n' ∉ ampersand bg := by cases bg <;> decide
    refine cutNewline_append fun hmem => ?_
    simp only [renderPipeline, List.mem_append] at hmem
    rcases hmem with (hmem | hmem) | hmem
    · exact newline_notMem_renderCommand (hw.quotable cmd List.mem_cons_self) hmem
    · rcases hmore _ hmem with h | h | ⟨other, hother, h⟩
      · exact absurd h (by decide)
      · exact absurd h (by decide)
      · exact newline_notMem_renderCommand
          (hw.quotable other (List.mem_cons_of_mem _ hother)) h
    · exact hamp hmem
  rw [parseLine, hcut]
  exact parseLine_pipes (fun s => rfl) hw.args_nonempty hw.quotable (by simpa using hw.room)

theorem length_renderCommand_le {cmd : List CString} (hcmd : cmd ∈ cmds) (bg : Bool) :
    (renderCommand cmd).length ≤ (renderLine cmds bg).length := by
  have hmore (cmds : List (List CString)) (hcmd : cmd ∈ cmds) :
      (renderCommand cmd).length ≤ (morePipes cmds).length :=
    (List.sublist_flatten_of_mem (List.mem_map_of_mem hcmd)).length_le.trans' (by simp; omega)
  have hpipeline : (renderCommand cmd).length ≤ (renderPipeline cmds).length := by
    cases cmds with
    | nil => nomatch hcmd
    | cons first cmds =>
        rw [renderPipeline, List.length_append]
        rcases List.mem_cons.mp hcmd with rfl | hcmd
        · exact Nat.le_add_right _ _
        · exact (hmore cmds hcmd).trans (Nat.le_add_left _ _)
  simp only [renderLine, List.length_append]
  omega

/-- **Quoting round trip.** On a line in the buffer `parse_line` finds the commands and the
flag, and `parseline` on each of its segments the arguments of that command. -/
theorem quoting_round_trip {buf : Buffer.Bytes} (hw : Writable cmds) (bg : Bool)
    (hbuf : Buffer.StrAt buf 0 (renderLine cmds bg)) (hfits : (renderLine cmds bg).length < MAXLINE) :
    ∃ buf' segments, Buffer.parseLine buf 0 = some (buf', segments, bg) ∧
      segments.length = cmds.length ∧
      List.Forall₂ (fun segment cmd => ∃ buf'' argv,
        Buffer.parseline buf' segment = (buf'', argv.map some ++ [none]) ∧
          List.Forall₂ (Buffer.StrAt buf'') argv cmd) segments cmds := by
  have hparse := Buffer.strAt_parseLine hbuf hfits
  rw [parseLine_renderLine hw bg] at hparse
  obtain ⟨⟨buf', segments, bg'⟩, hrun, hsegments, rfl⟩ :
      ∃ found, Buffer.parseLine buf 0 = some found ∧
        Buffer.HandsOut found (cmds.map renderCommand, bg) := by
    generalize Buffer.parseLine buf 0 = found at hparse
    cases hparse with
    | some h => exact ⟨_, rfl, h⟩
  dsimp only at hsegments
  refine ⟨buf', segments, hrun, by simpa using hsegments.length_eq, ?_⟩
  rw [List.forall₂_map_right_iff] at hsegments
  refine List.forall₂_iff_zip.mpr ⟨hsegments.length_eq, fun {segment cmd} hmem => ?_⟩
  have hcmd := (List.of_mem_zip hmem).2
  have hstr := List.forall₂_zip hsegments hmem
  have hlength := length_renderCommand_le hcmd bg'
  dsimp only at hfits
  obtain ⟨buf'', argv, hrun', hargv⟩ := Buffer.strAt_parseline hstr (by omega)
  rw [parseline_renderCommand (hw.quotable cmd hcmd) (hw.args_room cmd hcmd)] at hargv
  exact ⟨buf'', argv, hrun', hargv⟩

/-- Two commands: a bar, a single quote, a blank and nothing in the arguments. -/
def barCommands : List (List CString) := [["echo".toList, "a|'b c".toList, []], ["wc".toList]]

theorem quoting_round_trip_barCommands : ∃ buf' segments,
    Buffer.parseLine (Buffer.ofString (renderLine barCommands true)) 0 =
        some (buf', segments, true) ∧
      segments.length = 2 ∧
      List.Forall₂ (fun segment cmd => ∃ buf'' argv,
        Buffer.parseline buf' segment = (buf'', argv.map some ++ [none]) ∧
          List.Forall₂ (Buffer.StrAt buf'') argv cmd) segments barCommands :=
  quoting_round_trip ⟨by decide, by decide, by decide, by decide, by decide⟩ true
    (Buffer.strAt_ofString (by decide)) (by decide)

end SystemProgramming.MyShell
