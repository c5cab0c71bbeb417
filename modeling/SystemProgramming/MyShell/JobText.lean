import SystemProgramming.MyShell.Buffer
import SystemProgramming.MyShell.Pieces

/-!
The text that is kept of a job. `normalize_jobcmd` makes it of the whole line and
knows nothing of bars and quotes; `parse_line` strips white space and the final
`&` from its last segment. The two agree, for neither white space nor an `&`
changes where a line is cut.
-/

namespace SystemProgramming.MyShell

open SystemProgramming.CLib SystemProgramming.Library

/-! ### Cutting what was stripped -/

/-- White space around a line goes with the pieces at its ends. -/
theorem map_trimWs_linePieces (s : CString) :
    (linePieces (trimWs s)).map trimWs = (linePieces s).map trimWs := by
  obtain ⟨front, back, hs, hfront, hback⟩ := exists_trimWs s
  have hnot {d : Char} (hd : isspace d = true) : d ≠ '\'' ∧ d ≠ '"' ∧ d ≠ '|' := by
    refine ⟨?_, ?_, ?_⟩ <;> rintro rfl <;> exact absurd hd (by decide)
  have hcuts {blanks : CString} (hblanks : ∀ d ∈ blanks, isspace d = true) (q : Quotes) :
      pieces Quotes.next Quotes.cuts q blanks = [blanks] :=
    pieces_of_not_cuts fun d hd q => q.cuts_of_ne (hnot (hblanks d hd)).2.2
  have hquotes : front.foldl Quotes.next (false, false) = (false, false) :=
    Quotes.foldl_next (fun d hd => ⟨(hnot (hfront d hd)).1, (hnot (hfront d hd)).2.1⟩) _
  obtain ⟨init, last, hpieces⟩ := exists_pieces_concat Quotes.next Quotes.cuts (false, false)
    (trimWs s)
  have hlast : linePieces (trimWs s ++ back) = init ++ [last ++ back] :=
    pieces_append hpieces (hcuts hback _)
  obtain ⟨first, rest, hfirst⟩ := exists_pieces_cons Quotes.next Quotes.cuts (false, false)
    (trimWs s ++ back)
  have hone : pieces Quotes.next Quotes.cuts (false, false) front = [] ++ [front] :=
    hcuts hfront _
  have hwhole : linePieces s = (front ++ first) :: rest :=
    (congrArg linePieces hs).trans (pieces_append hone (hquotes.symm ▸ hfirst))
  calc (linePieces (trimWs s)).map trimWs = (init ++ [last ++ back]).map trimWs := by
        rw [linePieces, hpieces]
        simp [trimWs_append_of_blanks hback]
    _ = (first :: rest).map trimWs := by rw [← hlast, linePieces, hfirst]
    _ = (linePieces s).map trimWs := by
        rw [hwhole, List.map_cons, List.map_cons, trimWs_blanks_append hfront]

/-- A line ends in an `&` if its last piece does. -/
theorem endsAmp_of_pieces {s last : CString} {init : List CString}
    (hpieces : linePieces s = init ++ [last]) (hlast : trimWs last ≠ []) :
    endsAmp s = endsAmp last := by
  obtain ⟨z, rfl⟩ := (suffix_of_pieces hpieces).1
  have hne : last.filter (!isspace ·) ≠ [] := by
    intro hnil
    have hnone := getLast?_trimWs last
    rw [hnil, List.getLast?_nil, List.getLast?_eq_none_iff] at hnone
    exact hlast hnone
  rw [endsAmp, endsAmp, getLast?_trimWs, getLast?_trimWs, List.filter_append,
    List.getLast?_append_of_ne_nil _ hne]

/-- **The pieces of the job text.** -/
theorem pieces_stripAmp {s last : CString} {init : List CString}
    (hpieces : linePieces s = init ++ [last]) (hlast : trimWs last ≠ []) :
    ∃ init' last', linePieces (stripAmp s) = init' ++ [last'] ∧
      init'.map trimWs = init.map trimWs ∧ trimWs last' = stripAmp last := by
  have hends := endsAmp_of_pieces hpieces hlast
  have htrimmed {s : CString} {init₁ : List CString} {last₁ : CString}
      (h₁ : linePieces s = init₁ ++ [last₁]) : ∃ init₂ last₂,
        linePieces (trimWs s) = init₂ ++ [last₂] ∧ init₂.map trimWs = init₁.map trimWs ∧
          trimWs last₂ = trimWs last₁ := by
    obtain ⟨init₂, last₂, h₂⟩ := exists_pieces_concat Quotes.next Quotes.cuts (false, false)
      (trimWs s)
    have hmap := map_trimWs_linePieces s
    rw [linePieces, h₂, h₁, List.map_append, List.map_append] at hmap
    exact ⟨init₂, last₂, h₂, List.append_singleton_inj.mp hmap⟩
  obtain ⟨init₁, last₁, h₁, hinit₁, hlast₁⟩ := htrimmed hpieces
  by_cases hamp : endsAmp s = true
  · -- the last piece loses what the line loses
    obtain ⟨text, htext⟩ := List.getLast?_eq_some_iff.mp (of_decide_eq_true hamp)
    obtain ⟨init₂, last₂, h₂⟩ := exists_pieces_concat Quotes.next Quotes.cuts (false, false) text
    have hamp₂ : linePieces (text ++ ['&']) = init₂ ++ [last₂ ++ ['&']] :=
      pieces_append h₂ (pieces_of_not_cuts fun d hd q =>
        q.cuts_of_ne (List.mem_singleton.mp hd ▸ by decide))
    rw [htext, hamp₂] at h₁
    obtain ⟨rfl, rfl⟩ := List.append_singleton_inj.mp h₁
    obtain ⟨init₃, last₃, h₃, hinit₃, hlast₃⟩ := htrimmed h₂
    refine ⟨init₃, last₃, ?_, hinit₃.trans hinit₁, ?_⟩
    · rw [← stripAmp_congr (trimWs_trimWs s), htext, stripAmp_append]
      exact h₃
    · rw [hlast₃, ← stripAmp_congr hlast₁, stripAmp_append]
  · rw [stripAmp_of_not_endsAmp hamp, stripAmp_of_not_endsAmp (hends ▸ hamp)]
    exact ⟨init₁, last₁, h₁, hinit₁, hlast₁⟩

variable {line : CString} {segments : List CString} {bg : Bool}

theorem cutNewline_normalizeJobcmd (line : CString) :
    cutNewline (normalizeJobcmd line) = normalizeJobcmd line :=
  cutNewline_eq_self fun hmem => newline_notMem_cutNewline line (mem_of_mem_stripAmp hmem)

/-- **`parse_line` on the job text.** -/
theorem parseLine_normalizeJobcmd (hparse : parseLine line = some (segments, bg))
    (hne : segments ≠ []) : parseLine (normalizeJobcmd line) = some (segments, false) := by
  obtain ⟨init, last, hpieces, haccepted, rfl, -⟩ := (parseLine_eq_some_iff hne).mp hparse
  have hblank : trimWs last ≠ [] := fun hnil => haccepted.last.1 (stripAmp_of_blank hnil)
  obtain ⟨init', last', hpieces', hinit, hlast⟩ := pieces_stripAmp hpieces hblank
  have hends : endsAmp last' = false := by
    rw [endsAmp, decide_eq_false_iff_not, hlast]
    exact fun hend => haccepted.last.2 (List.mem_of_getLast? hend)
  have hstrip : stripAmp last' = stripAmp last := by
    rw [← hlast]
    exact if_neg (of_decide_eq_false hends)
  refine (parseLine_eq_some_iff hne).mpr ⟨init', last', ?_, ⟨?_, fun p hp => ?_, ?_⟩, ?_, ?_⟩
  · rw [cutNewline_normalizeJobcmd, normalizeJobcmd_eq, hpieces']
  · have hlength := congrArg List.length hinit
    rw [List.length_map, List.length_map] at hlength
    exact hlength ▸ haccepted.room
  · obtain ⟨p', hp', heq⟩ := List.mem_map.mp (hinit ▸ List.mem_map_of_mem hp)
    exact heq ▸ haccepted.commands p' hp'
  · exact hstrip ▸ haccepted.last
  · rw [hinit, hstrip]
  · exact hends.symm

/-- What is an `&` in the job text is one in some segment. -/
theorem amp_notMem_normalizeJobcmd (hparse : parseLine line = some (segments, bg))
    (hne : segments ≠ []) : '&' ∉ normalizeJobcmd line := by
  intro hmem
  obtain ⟨init, last, hpieces, haccepted, -, hbg⟩ :=
    (parseLine_eq_some_iff hne).mp (parseLine_normalizeJobcmd hparse hne)
  rw [cutNewline_normalizeJobcmd] at hpieces
  obtain ⟨piece, hpiece, hamp⟩ := exists_mem_linePieces hmem (by decide)
  have htrim := mem_trimWs hamp (by decide)
  rcases List.mem_append.mp (hpieces ▸ hpiece) with hpiece | hpiece
  · exact (haccepted.commands piece hpiece).2 htrim
  · rw [List.mem_singleton.mp hpiece] at htrim
    have hstrip : stripAmp last = trimWs last := if_neg (of_decide_eq_false hbg.symm)
    exact haccepted.last.2 (hstrip ▸ htrim)

/-- The job text is stripped of everything. -/
theorem normalizeJobcmd_fixed (hparse : parseLine line = some (segments, bg))
    (hne : segments ≠ []) :
    trimWs (normalizeJobcmd line) = normalizeJobcmd line ∧
      normalizeJobcmd (normalizeJobcmd line) = normalizeJobcmd line := by
  have htrim : trimWs (normalizeJobcmd line) = normalizeJobcmd line := trimWs_stripAmp _
  refine ⟨htrim, ?_⟩
  have hnot : (trimWs (normalizeJobcmd line)).getLast? ≠ some '&' := by
    rw [htrim]
    exact fun hend => amp_notMem_normalizeJobcmd hparse hne (List.mem_of_getLast? hend)
  rw [normalizeJobcmd_eq (normalizeJobcmd line), cutNewline_normalizeJobcmd, stripAmp, if_neg hnot,
    htrim]

/-! ### In the buffer -/

namespace Buffer

/-- `memmove (buf + dst, buf + src, n)`. -/
def memmove (buf : Bytes) (dst src n : Nat) : Bytes :=
  fun x => if dst ≤ x ∧ x < dst + n then buf (src + (x - dst)) else buf x

/-- `s = trim_ws (cmdline)`, and the text at `s` is moved to the front. -/
def trimFront (buf : Bytes) : Bytes :=
  let (s, buf) := trimWs buf 0
  if s ≠ 0 then memmove buf 0 s (strlen buf s + 1) else buf

/-- `normalize_jobcmd`, with `cmdline` the whole buffer. -/
def normalizeJobcmd (buf : Bytes) : Bytes :=
  let buf := trimFront (cutNewline buf 0)
  if buf 0 = NUL then buf
  else
    let e := strlen buf 0 - 1
    if buf e = '&' then trimFront (Function.update buf e NUL) else buf

variable {buf buf' : Bytes} {p q : Nat} {s : CString}

theorem StrAt.moved (hs : StrAt buf q s) (hsame : ∀ k ≤ s.length, buf' (p + k) = buf (q + k)) :
    StrAt buf' p s := by
  induction s generalizing p q with
  | nil => exact (hsame 0 (Nat.le_refl 0)).trans hs
  | cons c s ih =>
      refine ⟨(hsame 0 (Nat.zero_le _)).trans hs.1, hs.2.1, ih hs.2.2 fun k hk => ?_⟩
      rw [Nat.add_assoc, Nat.add_assoc, Nat.add_comm 1]
      exact hsame (k + 1) (Nat.succ_le_succ hk)

theorem strAt_memmove (hs : StrAt buf q s) (p : Nat) :
    StrAt (memmove buf p q (s.length + 1)) p s := by
  refine hs.moved fun k hk => ?_
  rw [memmove, if_pos ⟨Nat.le_add_right p k, by omega⟩, Nat.add_sub_cancel_left]

theorem strAt_trimFront (hs : StrAt buf 0 s) (hlength : s.length ≤ MAXLINE) :
    StrAt (trimFront buf) 0 (MyShell.trimWs s) := by
  obtain ⟨hstr, -⟩ := strAt_trimWs hs hlength
  rw [trimFront]
  generalize trimWs buf 0 = trimmed at hstr
  obtain ⟨start, buf₁⟩ := trimmed
  dsimp only at hstr ⊢
  split
  · rw [strlen_eq hstr ((length_trimWs s).trans hlength)]
    exact strAt_memmove hstr 0
  · next hstart =>
      obtain rfl := not_not.mp hstart
      exact hstr

/-- **`normalize_jobcmd` in the buffer.** -/
theorem strAt_normalizeJobcmd (hs : StrAt buf 0 s) (hlength : s.length ≤ MAXLINE) :
    StrAt (normalizeJobcmd buf) 0 (MyShell.normalizeJobcmd s) := by
  have hle : (CLib.cutNewline s).length ≤ s.length := (List.takeWhile_prefix _).length_le
  have htrim := strAt_trimFront (strAt_cutNewline hs hlength) (hle.trans hlength)
  have hshort := (length_trimWs (CLib.cutNewline s)).trans (hle.trans hlength)
  rw [normalizeJobcmd, MyShell.normalizeJobcmd]
  generalize trimFront (cutNewline buf 0) = buf₁ at htrim
  dsimp only
  simp only [htrim.eq_nul_iff]
  split
  · next hnil =>
      rw [hnil] at htrim ⊢
      exact htrim
  next hne =>
  -- the last character stands in front of the NUL
  obtain ⟨t, d, htd⟩ := (List.eq_nil_or_concat _).resolve_left hne
  rw [List.concat_eq_append] at htd
  rw [htd] at htrim hshort ⊢
  have hback : strlen buf₁ 0 - 1 = 0 + t.length := by
    rw [strlen_eq htrim hshort, List.length_append, Nat.zero_add]
    rfl
  have hlast : buf₁ (0 + t.length) = d := (StrAt.append htrim).1
  rw [hback, hlast, List.getLast?_concat, List.dropLast_concat]
  simp only [Option.some.injEq]
  split
  · rw [List.length_append] at hshort
    exact strAt_trimFront (StrAt.cut htrim) (Nat.le_of_add_right_le hshort)
  · exact htrim

end Buffer

theorem length_normalizeJobcmd (line : CString) :
    (normalizeJobcmd line).length ≤ line.length := by
  have hle : (cutNewline line).length ≤ line.length := (List.takeWhile_prefix _).length_le
  have hstrip := Buffer.length_trimWs (trimWs (cutNewline line)).dropLast
  have htrim := Buffer.length_trimWs (cutNewline line)
  rw [normalizeJobcmd_eq, stripAmp]
  rw [List.length_dropLast] at hstrip
  split <;> omega

/-- What `parse_line` finds in the buffer. -/
theorem exists_parseLine {buf buf' : Buffer.Bytes} {ptrs : List Nat}
    (hline : Buffer.StrAt buf 0 line) (hfits : line.length < MAXLINE)
    (hparse : Buffer.parseLine buf 0 = some (buf', ptrs, bg)) :
    ∃ segments, parseLine line = some (segments, bg) ∧
      List.Forall₂ (Buffer.StrAt buf') ptrs segments := by
  have hrel := Buffer.strAt_parseLine hline hfits
  rw [hparse] at hrel
  generalize hfound : parseLine line = found at hrel
  cases hrel with
  | some hhands =>
      obtain ⟨hstrings, rfl⟩ := hhands
      exact ⟨_, rfl, hstrings⟩

/-- `parse_line` finds on a text the strings `segments`, and no `&` at its end. -/
def FindsForeground (buf : Buffer.Bytes) (segments : List CString) : Prop :=
  ∃ buf' ptrs, Buffer.parseLine buf 0 = some (buf', ptrs, false) ∧
    List.Forall₂ (Buffer.StrAt buf') ptrs segments

/-- **The job text matches the command.** Of an accepted line `normalize_jobcmd` makes a text
without `&` and white space around it, which it leaves as it is and on which `parse_line` finds
the same segments. -/
theorem jobText_matches {buf : Buffer.Bytes} {found : Buffer.Bytes × List Nat × Bool}
    (hline : Buffer.StrAt buf 0 line) (hfits : line.length < MAXLINE)
    (hparse : Buffer.parseLine buf 0 = some found) (hne : found.2.1 ≠ []) :
    ∃ text, Buffer.StrAt (Buffer.normalizeJobcmd buf) 0 text ∧
      '&' ∉ text ∧ (∀ c ∈ text.head?, isspace c = false) ∧
      (∀ c ∈ text.getLast?, isspace c = false) ∧
      Buffer.StrAt (Buffer.normalizeJobcmd (Buffer.normalizeJobcmd buf)) 0 text ∧
      ∃ segments, List.Forall₂ (Buffer.StrAt found.1) found.2.1 segments ∧
        FindsForeground (Buffer.normalizeJobcmd buf) segments := by
  obtain ⟨buf', ptrs, bg⟩ := found
  obtain ⟨segments, hsegments, hstrings⟩ := exists_parseLine hline hfits hparse
  have hne' : segments ≠ [] := by
    rintro rfl
    exact hne (List.forall₂_nil_right_iff.mp hstrings)
  have hlength := length_normalizeJobcmd line
  have htext := Buffer.strAt_normalizeJobcmd hline (Nat.le_of_lt hfits)
  obtain ⟨htrim, hfixed⟩ := normalizeJobcmd_fixed hsegments hne'
  have hagain := Buffer.strAt_normalizeJobcmd htext (by omega)
  rw [hfixed] at hagain
  refine ⟨normalizeJobcmd line, htext, amp_notMem_normalizeJobcmd hsegments hne', fun c hc => ?_,
    fun c hc => ?_, hagain, segments, hstrings, ?_⟩
  · obtain ⟨t, ht⟩ := List.head?_eq_some_iff.mp hc
    exact trimWs_head (htrim.trans ht)
  · rw [← htrim, getLast?_trimWs] at hc
    simpa using (List.mem_filter.mp (List.mem_of_getLast? hc)).2
  · have hrel := Buffer.strAt_parseLine htext (by omega)
    rw [parseLine_normalizeJobcmd hsegments hne'] at hrel
    generalize hrun : Buffer.parseLine (Buffer.normalizeJobcmd buf) 0 = found at hrel
    cases hrel with
    | @some found _ hhands =>
        obtain ⟨buf₁, ptrs₁, bg₁⟩ := found
        obtain ⟨hptrs, rfl⟩ := hhands
        exact ⟨buf₁, ptrs₁, hrun, hptrs⟩

/-- A job in the background, with an `&` behind a quote that is not closed. -/
def openQuoteLine : CString := " cat | grep 'x y &\n".toList

theorem jobText_matches_openQuote :
    let buf := Buffer.ofString openQuoteLine
    let found := (Buffer.parseLine buf 0).get (by decide +kernel)
    ∃ text, Buffer.StrAt (Buffer.normalizeJobcmd buf) 0 text ∧
      '&' ∉ text ∧ (∀ c ∈ text.head?, isspace c = false) ∧
      (∀ c ∈ text.getLast?, isspace c = false) ∧
      Buffer.StrAt (Buffer.normalizeJobcmd (Buffer.normalizeJobcmd buf)) 0 text ∧
      ∃ segments, List.Forall₂ (Buffer.StrAt found.1) found.2.1 segments ∧
        FindsForeground (Buffer.normalizeJobcmd buf) segments :=
  jobText_matches (Buffer.strAt_ofString (by decide)) (by decide) (Option.some_get _).symm
    (by decide +kernel)

end SystemProgramming.MyShell
