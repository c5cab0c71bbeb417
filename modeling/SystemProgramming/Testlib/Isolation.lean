import SystemProgramming.Testlib.ObjectsRefinement

/-!
A line works on the objects that it names. What a line does with the objects is
known from `Objects.DoLine`; the memory determines the objects, so that the same
holds of the program.
-/

namespace SystemProgramming.Testlib

open SystemProgramming.CLib SystemProgramming.Library BitmapMemory

/-! ### Entries -/

section Entries

variable {β : Type} {entries entries' entries'' : Fin MAX_DS → Option (String × β)}
  {i : Fin MAX_DS} {name other : String}

/-- What has the name stays as it is. -/
def KeepsEntry (entries entries' : Fin MAX_DS → Option (String × β)) (name : String) : Prop :=
  ∀ i x, entries i = some (name, x) → entries' i = some (name, x)

theorem KeepsEntry.refl (entries : Fin MAX_DS → Option (String × β)) (name : String) :
    KeepsEntry entries entries name := fun _ _ h => h

theorem KeepsEntry.trans (h : KeepsEntry entries entries' name)
    (h' : KeepsEntry entries' entries'' name) : KeepsEntry entries entries'' name :=
  fun i x hx => h' i x (h i x hx)

/-- Another slot changes. -/
theorem keepsEntry_update (hslot : (entries i).map Prod.fst ≠ some name)
    (entry : Option (String × β)) :
    KeepsEntry entries (Function.update entries i entry) name := by
  intro j x hj
  refine (Function.update_of_ne ?_ ..).trans hj
  rintro rfl
  rw [hj] at hslot
  exact hslot rfl

theorem of_findEntry (h : findEntry entries name = some i) :
    (entries i).map Prod.fst = some name := by
  have hany := List.find?_some h
  cases he : entries i with
  | none => simp [he] at hany
  | some e => simpa [he] using hany

theorem findEntry_ne (entries : Fin MAX_DS → Option (String × β))
    (h : findEntry entries other = some i) (hne : other ≠ name) :
    (entries i).map Prod.fst ≠ some name := by
  rw [of_findEntry h]
  exact fun heq => hne (Option.some.inj heq)

theorem freeEntry_ne (entries : Fin MAX_DS → Option (String × β))
    (h : freeEntry entries = some i) (name : String) :
    (entries i).map Prod.fst ≠ some name := by
  have hnone := List.find?_some h
  rw [Option.isNone_iff_eq_none.mp hnone]
  exact fun heq => by cases heq

end Entries

/-! ### Lists -/

/-- The second list of a command. -/
def ListCommand.other : ListCommand → Option String
  | .splice _ source _ _ => some source
  | .unique duplicates => duplicates
  | _ => none

theorem mem_of_other {token : String} {args : List String} {c : ListCommand} {other : String}
    (hcommand : listCommand token args = some c) (hother : c.other = some other) :
    other ∈ args := by
  unfold listCommand at hcommand
  split at hcommand <;> cases hcommand
  case h_14 =>
    obtain rfl := Option.some.inj hother
    simp
  case h_15 => exact List.mem_of_mem_head? hother
  all_goals cases hother

section Lists

variable {r : Reference} {i : Fin MAX_DS} {name : String} {c : ListCommand} {ok : Bool}

theorem keepsEntry_set (hi : (r.lists i).map Prod.fst ≠ some name) (xs : List Int) :
    KeepsEntry r.lists (r.set i xs).lists name := keepsEntry_update hi _

theorem keepsEntry_set_set {j : Fin MAX_DS} (hi : (r.lists i).map Prod.fst ≠ some name)
    (hj : (r.lists j).map Prod.fst ≠ some name) (xs ys : List Int) :
    KeepsEntry r.lists ((r.set i xs).set j ys).lists name := by
  refine (keepsEntry_set hi xs).trans (keepsEntry_set ?_ ys)
  rwa [Reference.map_fst_set]

theorem keepsEntry_printValue (value : Option Int) :
    KeepsEntry r.lists (r.printValue value).lists name := by
  cases value <;> exact .refl _ _

theorem keepsEntry_listCommand (hi : (r.lists i).map Prod.fst ≠ some name)
    (hother : c.other ≠ some name) : KeepsEntry r.lists (r.listCommand ok i c).lists name := by
  cases c with
  | pushFront value | pushBack value | insertOrdered value | insert idx value | remove idx =>
      rw [Reference.listCommand]
      split
      · exact keepsEntry_set hi _
      · exact .refl _ _
  | popFront | popBack | reverse | sort => exact keepsEntry_set hi _
  | front | back | max | min => exact keepsEntry_printValue _
  | empty | size => exact .refl _ _
  | splice before source first last =>
      rw [Reference.listCommand]
      split
      · exact .refl _ _
      · rename_i src hsource
        have hsrc : (r.lists src).map Prod.fst ≠ some name :=
          findEntry_ne r.lists hsource fun heq => hother (congrArg some heq)
        split
        · rw [Reference.splice]
          simp only
          split
          · exact keepsEntry_set hi _
          · exact keepsEntry_set_set hsrc hi _ _
        · exact .refl _ _
  | unique duplicates =>
      simp only [Reference.listCommand]
      split
      · exact keepsEntry_set hi _
      · rename_i dups hdups
        obtain ⟨other, hname, hfind⟩ := Option.bind_eq_some_iff.mp hdups
        refine keepsEntry_set_set hi (findEntry_ne r.lists hfind ?_) _ _
        rintro rfl
        exact hother hname
  | swap a b =>
      rw [Reference.listCommand]
      split
      · exact keepsEntry_set hi _
      · exact .refl _ _

end Lists

/-! ### Lines -/

/-- All objects of the name are as they were. -/
structure Objects.Keeps (t t' : Objects) (name : String) : Prop where
  lists : KeepsEntry t.lists.lists t'.lists.lists name
  tables : KeepsEntry t.tables t'.tables name
  bitmaps : KeepsEntry t.bitmaps t'.bitmaps name

namespace Objects

variable {t t' t'' : Objects} {o : Outcomes} {tokens : List String} {name other : String}
  {line : Testlib.Line} {lines : List Testlib.Line}

theorem Keeps.refl (t : Objects) (name : String) : t.Keeps t name :=
  ⟨.refl _ _, .refl _ _, .refl _ _⟩

theorem Keeps.trans (h : t.Keeps t' name) (h' : t'.Keeps t'' name) : t.Keeps t'' name :=
  ⟨h.lists.trans h'.lists, h.tables.trans h'.tables, h.bitmaps.trans h'.bitmaps⟩

theorem keeps_setLists {r : Reference} (h : KeepsEntry t.lists.lists r.lists name) :
    t.Keeps { t with lists := r } name := ⟨h, .refl _ _, .refl _ _⟩

theorem keeps_create (memory : BitmapMalloc) (tokens : List String) (name : String) :
    t.Keeps (t.create memory tokens) name := by
  unfold create
  split
  · rename_i new rest
    refine keeps_setLists ?_
    rw [Reference.command]
    split
    · exact .refl _ _
    · rename_i slot hslot
      exact keepsEntry_update (freeEntry_ne t.lists.lists hslot name) _
  · split
    · exact .refl _ _
    · rename_i slot hslot
      exact ⟨.refl _ _, keepsEntry_update (freeEntry_ne _ hslot name) _, .refl _ _⟩
  · split
    · exact .refl _ _
    · rename_i slot hslot
      simp only
      split
      · exact ⟨.refl _ _, .refl _ _, keepsEntry_update (freeEntry_ne _ hslot name) _⟩
      · exact .refl _ _
  · exact .refl _ _

theorem keeps_delete (hne : other ≠ name) : t.Keeps (t.delete other) name := by
  rw [delete, find]
  split
  · rename_i slot hslot
    exact keeps_setLists
      (keepsEntry_update (findEntry_ne t.lists.lists hslot hne) _)
  · split
    · rename_i slot hslot
      exact ⟨.refl _ _, keepsEntry_update (findEntry_ne _ hslot hne) _, .refl _ _⟩
    · cases hslot : findEntry t.bitmaps other with
      | none => exact .refl _ _
      | some slot =>
          exact ⟨.refl _ _, .refl _ _, keepsEntry_update (findEntry_ne _ hslot hne) _⟩

theorem DoDumpdata.keeps (h : t.DoDumpdata other t') (name : String) : t.Keeps t' name := by
  unfold DoDumpdata at h
  split at h
  · exact h ▸ ⟨.refl _ _, .refl _ _, .refl _ _⟩
  · obtain ⟨xs, -, -, rfl⟩ := h
    exact ⟨.refl _ _, .refl _ _, .refl _ _⟩
  · exact h ▸ ⟨.refl _ _, .refl _ _, .refl _ _⟩
  · exact h ▸ .refl _ _

theorem DoListCommand.keeps (h : t.DoListCommand o tokens t') (hname : name ∉ tokens) :
    t.Keeps t' name := by
  unfold DoListCommand at h
  split at h
  · rename_i token other args
    have hne : other ≠ name := by
      rintro rfl
      simp at hname
    split at h
    · exact h ▸ .refl _ _
    · rename_i slot hslot
      have hslot := findEntry_ne t.lists.lists hslot hne
      split at h
      · obtain ⟨xs, -, rfl⟩ := h
        exact keeps_setLists (keepsEntry_set hslot xs)
      · split at h
        · exact h ▸ .refl _ _
        · rename_i c hcommand
          subst h
          refine keeps_setLists (keepsEntry_listCommand hslot fun hother => hname ?_)
          exact List.mem_cons_of_mem _ (List.mem_cons_of_mem _ (mem_of_other hcommand hother))
  · exact h ▸ .refl _ _

theorem DoHashCommand.keeps (h : t.DoHashCommand o tokens t') (hname : name ∉ tokens) :
    t.Keeps t' name := by
  unfold DoHashCommand at h
  split at h
  · rename_i token other args
    have hne : other ≠ name := by
      rintro rfl
      simp at hname
    split at h
    · exact h ▸ .refl _ _
    · rename_i slot hslot
      split at h
      · exact h ▸ .refl _ _
      · exact h ▸ ⟨.refl _ _, keepsEntry_update (findEntry_ne _ hslot hne) _, .refl _ _⟩
  · exact h ▸ .refl _ _

theorem DoBitmapCommand.keeps (h : t.DoBitmapCommand o tokens t') (hname : name ∉ tokens) :
    t.Keeps t' name := by
  unfold DoBitmapCommand at h
  split at h
  · rename_i token other args
    have hne : other ≠ name := by
      rintro rfl
      simp at hname
    split at h
    · exact h ▸ .refl _ _
    · rename_i slot hslot
      split at h
      · exact h ▸ .refl _ _
      · obtain ⟨text, -, rfl⟩ := h
        exact ⟨.refl _ _, .refl _ _, keepsEntry_update (findEntry_ne _ hslot hne) _⟩
  · exact h ▸ .refl _ _

/-- A line keeps what it does not name. -/
theorem DoLine.keeps (h : t.DoLine line t') (hname : name ∉ line.1) : t.Keeps t' name := by
  obtain ⟨tokens, o⟩ := line
  unfold DoLine at h
  simp only at h hname
  split at h
  · exact h ▸ .refl _ _
  · exact h ▸ keeps_create _ _ _
  · refine h ▸ keeps_delete ?_
    rintro rfl
    simp at hname
  · exact h.keeps name
  · split at h
    · exact h.keeps hname
    · split at h
      · exact h.keeps hname
      · split at h
        · exact h.keeps hname
        · exact h ▸ .refl _ _

theorem keeps_of_runsTo (h : RunsTo DoLine lines t t') (hname : ∀ line ∈ lines, name ∉ line.1) :
    t.Keeps t' name := by
  induction h with
  | nil => exact .refl _ _
  | cons hline _ ih =>
      exact (DoLine.keeps hline (hname _ List.mem_cons_self)).trans
        (ih fun line hmem => hname line (List.mem_cons_of_mem _ hmem))

end Objects

/-! ### The program -/

variable {s : Store} {t t' : Objects}

theorem DsObj.Matches.unique {β γ : Type} {P : β → γ → Prop} {obj : DsObj β}
    {entry entry' : Option (String × γ)} (hP : ∀ x y, P obj.obj x → P obj.obj y → x = y)
    (h : obj.Matches P entry) (h' : obj.Matches P entry') : entry' = entry := by
  cases hused : obj.used with
  | false =>
      have hnone {e : Option (String × γ)} (he : obj.Matches P e) : e = none := by
        cases e with
        | none => rfl
        | some e => exact absurd (hused.symm.trans he.1) Bool.false_ne_true
      rw [hnone h, hnone h']
  | true =>
      obtain ⟨x, rfl, hx⟩ := h.of_used hused
      obtain ⟨y, rfl, hy⟩ := h'.of_used hused
      rw [hP x y hx hy]

/-- The memory determines the objects. -/
theorem Store.Shows.unique (h : s.Shows t) (h' : s.Shows t') : t' = t := by
  obtain ⟨items, hl⟩ := h.lists
  obtain ⟨items', hl'⟩ := h'.lists
  have htables : t'.tables = t.tables := by
    funext i
    refine (h.tables i).unique (fun V W hV hW => ?_) (h'.tables i)
    ext v
    rw [hV.2 v, hW.2 v]
  have hbitmaps : t'.bitmaps = t.bitmaps := by
    funext i
    refine (h.bitmaps i).unique (fun bits bits' hbits hbits' => ?_) (h'.bitmaps i)
    obtain ⟨p, a, b, hp, hb, rfl⟩ := hbits
    rw [BitmapSlot.Shows, hp] at hbits'
    exact hbits'.shown_eq hb
  obtain ⟨r, tables, bitmaps⟩ := t
  obtain ⟨r', tables', bitmaps'⟩ := t'
  obtain rfl : tables' = tables := htables
  obtain rfl : bitmaps' = bitmaps := hbitmaps
  exact congrArg (Objects.mk · tables' bitmaps') (hl.reference_eq hl')

/-- **Isolation.** Lines that do not name an object do not change it. -/
theorem objects_isolated (fuel : Nat) (lines done rest : List Line) (name : String)
    (hfuel : lines.length + 9 ≤ fuel)
    (hmeet : StepsMeet (Main.step fuel) LineSound (linesRun lines) .initial)
    (hlines : linesRun lines = done ++ rest) (hname : ∀ line ∈ rest, name ∉ line.1) :
    ∃ s s', exec (Main.step fuel) done .initial = some s ∧
      exec (Main.step fuel) (linesRun lines) .initial = some s' ∧
      ∀ t t', s.Shows t → s'.Shows t' → t.Keeps t' name := by
  have hlength : (linesRun lines).length ≤ lines.length := (List.takeWhile_sublist _).length_le
  rw [hlines, List.length_append] at hlength
  rw [hlines] at hmeet ⊢
  have hroom : rest.length + done.length + 9 ≤ fuel := by omega
  obtain ⟨s, t, hexec, -, h, hs⟩ := (Store.Lasts.initial hroom).exec_shows shows_initial
    (hmeet.of_isPrefix (List.prefix_append done rest))
  rw [← Nat.zero_add rest.length] at h
  obtain ⟨s', t', hrest, hruns, -, hs'⟩ := h.exec_shows hs (hmeet.of_append hexec)
  refine ⟨s, s', hexec, ?_, fun u u' hu hu' => ?_⟩
  · rw [exec_append, hexec, Option.bind_some, hrest]
  · rw [hs.unique hu, hs'.unique hu']
    exact Objects.keeps_of_runsTo hruns hname

/-- A list, and a table of another name that is filled, dumped and deleted. -/
def separateLines : List Line :=
  [(["create", "list", "L"], .plain), (["list_push_front", "L", "7"], .plain),
    (["create", "hashtable", "H"], .plain), (["hash_insert", "H", "1"], .plain),
    (["dumpdata", "H"], .plain), (["delete", "H"], .plain)]

theorem objects_isolated_separateLines :
    ∃ s s', exec (Main.step 15) (separateLines.take 2) .initial = some s ∧
      exec (Main.step 15) (linesRun separateLines) .initial = some s' ∧
      ∀ t t', s.Shows t → s'.Shows t' → t.Keeps t' "L" := by
  refine objects_isolated 15 separateLines (separateLines.take 2) (separateLines.drop 2) "L"
    (by decide) (.of_forall fun s line hline => ?_) rfl (by decide)
  have hmem : line ∈ separateLines := hline
  simp only [separateLines, List.mem_cons, List.not_mem_nil, or_false] at hmem
  rcases hmem with rfl | rfl | rfl | rfl | rfl | rfl
  case inl | inr.inr.inl => exact lineSound_create (by simp [Outcomes.plain]) (by simp)
  all_goals
    exact lineSound_command (by decide) (fun _ _ _ _ h => by cases h) (fun _ h => by cases h)
      (fun _ h => by cases h) rfl _

end SystemProgramming.Testlib
