import Disassembly.Files

/-!
# Files after writing

A path leads through directories to a name in the last of them. `enter` follows the components
before that name; a file that is written leaves this walk as it was, for it makes no directory but
those that it lies in, and these have been there before (`isDirectory_insert`). So a file that has
been written is found where it was put (`look_write_self`), and what lies beside it stays as it is
(`look_write_beside`). Of files that are written to one directory in turn, the last one under a path
is the one that stays (`look_writeAll`).
-/

namespace Disassembly

namespace FileSet

variable {set set' : FileSet} {here dir front : List String} {c c' path path' text : String}

/-! ## Names and directories -/

theorem file?_insert (set : FileSet) (name name' : List String) (bytes : Array UInt8) :
    (set.insert name bytes).file? name' = if name' = name then some bytes else set.file? name' := by
  unfold insert file?
  rw [List.find?_append]
  split
  · next h =>
      have hnone : (set.files.filter fun f => f.1 ≠ name).find? (fun f => f.1 = name') = none := by
        rw [List.find?_eq_none]
        intro f hf
        rw [h]
        simpa using (List.mem_filter.mp hf).2
      rw [hnone, h]
      simp
  · next h =>
      have hkept : (set.files.filter fun f => f.1 ≠ name).find? (fun f => f.1 = name') =
          set.files.find? fun f => f.1 = name' := by
        rw [List.find?_filter]
        congr 1
        funext f
        by_cases hf : f.1 = name' <;> simp [hf, h]
      rw [hkept]
      simp [Ne.symm h]

theorem isDirectory_iff : set.isDirectory dir = true ↔
    ∃ f ∈ set.files, dir <+: f.1 ∧ dir.length < f.1.length := by
  simp [isDirectory]

/-- The working directory, or a directory below it. -/
def HasDirectory (set : FileSet) (dir : List String) : Prop :=
  dir = [] ∨ set.isDirectory dir = true

/-- A directory lies in directories. -/
theorem HasDirectory.above (h : set.HasDirectory dir) (habove : here <+: dir) :
    set.HasDirectory here := by
  rcases h with rfl | h
  · exact .inl (List.prefix_nil.mp habove)
  · obtain ⟨f, hf, hdir, hlt⟩ := isDirectory_iff.mp h
    refine .inr (isDirectory_iff.mpr ⟨f, hf, habove.trans hdir, ?_⟩)
    exact Nat.lt_of_le_of_lt habove.length_le hlt

/-- A new file in an existing directory makes no new directory. -/
theorem isDirectory_insert (hdir : set.HasDirectory dir) (c : String) (bytes : Array UInt8)
    (hhere : here ≠ []) :
    (set.insert (dir ++ [c]) bytes).isDirectory here = set.isDirectory here := by
  rw [Bool.eq_iff_iff]
  constructor
  · intro h
    obtain ⟨f, hf, habove, hlt⟩ := isDirectory_iff.mp h
    rcases List.mem_append.mp hf with hf | hf
    · exact isDirectory_iff.mpr ⟨f, (List.mem_filter.mp hf).1, habove, hlt⟩
    · rw [List.mem_singleton.mp hf] at habove hlt
      rcases List.prefix_concat_iff.mp habove with rfl | habove
      · exact absurd hlt (Nat.lt_irrefl _)
      · rcases hdir.above habove with hnil | h
        · exact absurd hnil hhere
        · exact h
  · intro h
    obtain ⟨f, hf, habove, hlt⟩ := isDirectory_iff.mp h
    -- the file that showed the directory may be the one that is replaced
    by_cases hname : f.1 = dir ++ [c]
    · rw [hname] at habove hlt
      exact isDirectory_iff.mpr
        ⟨(dir ++ [c], bytes), List.mem_append_right _ List.mem_cons_self, habove, hlt⟩
    · have hkept : f ∈ (set.insert (dir ++ [c]) bytes).files :=
        List.mem_append_left _ (List.mem_filter.mpr ⟨hf, by simpa using hname⟩)
      exact isDirectory_iff.mpr ⟨f, hkept, habove, hlt⟩

/-! ## The way to a directory -/

/-- A component that is the name of a file or a directory. -/
def IsName (c : String) : Prop :=
  c ≠ "" ∧ c ≠ "." ∧ c ≠ ".."

/-- The directory that components lead to from a directory, unless one of them leads nowhere or out
of the working directory. -/
def enter (set : FileSet) (here : List String) : List String → Option (List String)
  | [] => some here
  | c :: cs =>
    if c = "" ∨ c = "." then enter set here cs
    else if c = ".." then if here = [] then none else enter set here.dropLast cs
    else if isTooLong c = true ∨ set.isDirectory (here ++ [c]) = false then none
    else enter set (here ++ [c]) cs

/-- The directory that the components of a path lead to. -/
def arrive (set : FileSet) (front : List String) : Option (List String) :=
  if front.head? = some "" then none else set.enter [] front

theorem enter_hasDirectory (h : set.enter here front = some dir) (hhere : set.HasDirectory here) :
    set.HasDirectory dir := by
  fun_induction enter set here front with
  | case1 here =>
      cases h
      exact hhere
  | case2 here c cs _ ih => exact ih h hhere
  | case3 => cases h
  | case4 here cs hne _ ih =>
      have habove : here.dropLast <+: here := ⟨_, List.dropLast_concat_getLast hne⟩
      exact ih h (hhere.above habove)
  | case5 => cases h
  | case6 here c cs _ _ hopen ih =>
      rw [not_or, Bool.not_eq_false] at hopen
      exact ih h (.inr hopen.2)

theorem arrive_hasDirectory (h : set.arrive front = some dir) : set.HasDirectory dir := by
  unfold arrive at h
  split at h
  · cases h
  · exact enter_hasDirectory h (.inl rfl)

theorem enter_insert (hdir : set.HasDirectory dir) (c : String) (bytes : Array UInt8)
    (here front : List String) :
    (set.insert (dir ++ [c]) bytes).enter here front = set.enter here front := by
  induction front generalizing here with
  | nil => rfl
  | cons first front ih =>
      have hne : here ++ [first] ≠ [] := by simp
      have hsame := isDirectory_insert hdir c bytes hne
      simp only [enter, ih, hsame]

theorem arrive_insert (hdir : set.HasDirectory dir) (c : String) (bytes : Array UInt8)
    (front : List String) :
    (set.insert (dir ++ [c]) bytes).arrive front = set.arrive front := by
  simp only [arrive, enter_insert hdir]

/-! ## The name at the end of a path -/

theorem followOutside_concat (hc : IsName c) (cs : List String) :
    ∃ e, followOutside (cs ++ [c]) = .error e := by
  induction cs with
  | nil =>
      obtain ⟨hempty, hdot, hup⟩ := hc
      simp only [List.nil_append, followOutside, hempty, hdot, hup, or_self, if_false]
      split
      · exact ⟨_, rfl⟩
      · exact ⟨_, rfl⟩
  | cons first cs ih =>
      simp only [List.cons_append, followOutside]
      split
      · exact ih
      · split
        · exact ⟨_, rfl⟩
        · exact ⟨_, rfl⟩

theorem follow_concat (c : String) (h : set.enter here front = some dir) :
    set.follow here (front ++ [c]) = set.follow dir [c] := by
  fun_induction enter set here front with
  | case1 here =>
      cases h
      rfl
  | case2 here first cs hidle ih =>
      rw [List.cons_append, follow, if_pos hidle]
      exact ih h
  | case3 => cases h
  | case4 here cs hne hidle ih =>
      rw [List.cons_append, follow, if_neg hidle, if_pos rfl, if_neg hne]
      exact ih h
  | case5 => cases h
  | case6 here first cs hidle hup hopen ih =>
      rw [not_or, Bool.not_eq_false] at hopen
      rw [List.cons_append, follow, if_neg hidle, if_neg hup, if_neg hopen.1, if_pos hopen.2]
      exact ih h

theorem follow_concat_of_none (hc : IsName c) (h : set.enter here front = none) :
    ∃ e, set.follow here (front ++ [c]) = .error e := by
  fun_induction enter set here front with
  | case1 => cases h
  | case2 here first cs hidle ih =>
      rw [List.cons_append, follow, if_pos hidle]
      exact ih h
  | case3 cs hidle =>
      rw [List.cons_append, follow, if_neg hidle, if_pos rfl, if_pos rfl]
      exact followOutside_concat hc cs
  | case4 here cs hne hidle ih =>
      rw [List.cons_append, follow, if_neg hidle, if_pos rfl, if_neg hne]
      exact ih h
  | case5 here first cs hidle hup hclosed =>
      rw [List.cons_append, follow, if_neg hidle, if_neg hup]
      split
      · exact ⟨_, rfl⟩
      · next hlong =>
          have hnone := hclosed.resolve_left hlong
          simp only [hnone, Bool.false_eq_true, if_false, List.append_eq_nil_iff, reduceCtorEq,
            and_false]
          split
          · exact ⟨_, rfl⟩
          · exact ⟨_, rfl⟩
  | case6 here first cs hidle hup hopen ih =>
      rw [not_or, Bool.not_eq_false] at hopen
      rw [List.cons_append, follow, if_neg hidle, if_neg hup, if_neg hopen.1, if_pos hopen.2]
      exact ih h

theorem resolve_relative (hc : IsName c) (hhead : front.head? ≠ some "") :
    set.resolve (front ++ [c]) = set.follow [] (front ++ [c]) := by
  unfold resolve
  split
  · next cs hcs =>
      cases front with
      | nil =>
          cases hcs
          exact absurd rfl hc.1
      | cons first front =>
          cases hcs
          exact absurd rfl hhead
  · rfl

theorem resolve_concat (hc : IsName c) (h : set.arrive front = some dir) :
    set.resolve (front ++ [c]) = set.follow dir [c] := by
  unfold arrive at h
  split at h
  · cases h
  · next hhead => rw [resolve_relative hc hhead, follow_concat c h]

theorem arrive_of_resolve {place : Place} (hc : IsName c)
    (h : set.resolve (front ++ [c]) = .ok place) : ∃ dir, set.arrive front = some dir := by
  unfold arrive
  split
  · next hhead =>
      obtain ⟨rest, rfl⟩ := List.head?_eq_some_iff.mp hhead
      obtain ⟨e, he⟩ := followOutside_concat hc rest
      rw [List.cons_append, resolve, he] at h
      cases h
  · next hhead =>
      cases henter : set.enter [] front with
      | some dir => exact ⟨dir, rfl⟩
      | none =>
          obtain ⟨e, he⟩ := follow_concat_of_none hc henter
          rw [resolve_relative hc hhead, he] at h
          cases h

/-- What a name in a directory leads to. -/
theorem follow_name (hc : IsName c) : set.follow dir [c] =
    if isTooLong c then .error .nameTooLong
    else if set.isDirectory (dir ++ [c]) then .ok .directory
    else match set.file? (dir ++ [c]) with
      | some bytes => .ok (.file (dir ++ [c]) bytes)
      | none => .ok (.vacant (dir ++ [c])) := by
  obtain ⟨hempty, hdot, hup⟩ := hc
  cases hfile : set.file? (dir ++ [c]) with
  | none => simp [follow, hempty, hdot, hup, hfile]
  | some bytes => simp [follow, hempty, hdot, hup, hfile]

theorem follow_name_eq_ok {place : Place} (hc : IsName c) (h : set.follow dir [c] = .ok place)
    (hplace : place ≠ .directory) :
    isTooLong c = false ∧ set.isDirectory (dir ++ [c]) = false ∧
      ((∃ bytes, place = .file (dir ++ [c]) bytes) ∨ place = .vacant (dir ++ [c])) := by
  rw [follow_name hc] at h
  split at h
  · cases h
  · next hlong =>
      split at h
      · cases h
        exact absurd rfl hplace
      · next hfree =>
          refine ⟨by simpa using hlong, by simpa using hfree, ?_⟩
          split at h
          · next bytes _ =>
              cases h
              exact .inl ⟨bytes, rfl⟩
          · cases h
            exact .inr rfl

/-! ## Writing -/

theorem targetComponents_concat (hpath : components path = front ++ [c]) (hc : IsName c) :
    targetComponents path = front ++ [c] := by
  unfold targetComponents
  rw [hpath]
  simp [hc.1]

/-- A text that can be written goes to a name that is no directory, in a directory that is there. -/
theorem write_eq_ok (hpath : components path = front ++ [c]) (hc : IsName c)
    (h : set.write path text = .ok set') :
    checkPath path = .ok () ∧ isTooLong c = false ∧ ∃ dir, set.arrive front = some dir ∧
      set.isDirectory (dir ++ [c]) = false ∧
      set' = set.insert (dir ++ [c]) text.toUTF8.data := by
  unfold write at h
  rw [targetComponents_concat hpath hc] at h
  cases hcheck : checkPath path with
  | error e =>
      rw [hcheck] at h
      cases h
  | ok _ =>
      cases hresolve : set.resolve (front ++ [c]) with
      | error e =>
          rw [hcheck, hresolve] at h
          cases h
      | ok place =>
          obtain ⟨dir, hdir⟩ := arrive_of_resolve hc hresolve
          have hfollow := (resolve_concat hc hdir).symm.trans hresolve
          rw [hcheck, hresolve] at h
          have hplace : place ≠ .directory := by
            rintro rfl
            cases h
          obtain ⟨hlong, hfree, hname⟩ := follow_name_eq_ok hc hfollow hplace
          refine ⟨rfl, hlong, dir, hdir, hfree, ?_⟩
          rcases hname with ⟨bytes, rfl⟩ | rfl
          · cases h
            rfl
          · cases h
            rfl

/-- A file that has been written is found under its path. -/
theorem look_write_self (hpath : components path = front ++ [c]) (hc : IsName c)
    (h : set.write path text = .ok set') : set'.look path = .ok (.file text.toUTF8.data) := by
  obtain ⟨hcheck, hlong, dir, hdir, hfree, rfl⟩ := write_eq_ok hpath hc h
  have hthere := arrive_hasDirectory hdir
  have hdir' := (arrive_insert hthere c text.toUTF8.data front).trans hdir
  have hfree' := (isDirectory_insert hthere c text.toUTF8.data (by simp)).trans hfree
  simp only [look, hcheck, hpath, resolve_concat hc hdir', follow_name hc, hlong, hfree',
    file?_insert, Bool.false_eq_true, if_false, if_true]
  rfl

theorem components_inj (h : components path = components path') : path = path' := by
  have hpieces : Text.pieces '/' path.toList = Text.pieces '/' path'.toList :=
    (List.map_inj_right fun _ _ => String.ofList_inj.mp).mp h
  rw [← String.toList_inj, ← Text.join_pieces '/' path.toList, hpieces, Text.join_pieces]

/-- A file that is written leaves the others in its directory as they were. -/
theorem look_write_beside (hpath : components path = front ++ [c]) (hc : IsName c)
    (hpath' : components path' = front ++ [c']) (hc' : IsName c') (hne : path' ≠ path)
    (h : set.write path text = .ok set') : set'.look path' = set.look path' := by
  obtain ⟨hcheck, hlong, dir, hdir, hfree, rfl⟩ := write_eq_ok hpath hc h
  have hthere := arrive_hasDirectory hdir
  have hdir' := (arrive_insert hthere c text.toUTF8.data front).trans hdir
  have hname : dir ++ [c'] ≠ dir ++ [c] := by
    intro heq
    rw [List.append_cancel_left_eq] at heq
    exact hne (components_inj (by rw [hpath, hpath', heq]))
  have hsame : (set.insert (dir ++ [c]) text.toUTF8.data).isDirectory (dir ++ [c']) =
      set.isDirectory (dir ++ [c']) := isDirectory_insert hthere c _ (by simp)
  simp only [look, hpath', resolve_concat hc' hdir', resolve_concat hc' hdir, follow_name hc',
    hsame, file?_insert, if_neg hname]

/-! ## Writing several files -/

/-- A path to a name behind given components. -/
def IsBehind (front : List String) (path : String) : Prop :=
  ∃ c, IsName c ∧ components path = front ++ [c]

theorem writeAll_cons_ok {rest : List (String × String)}
    (h : set.writeAll ((path, text) :: rest) = (set', none)) :
    ∃ next, set.write path text = .ok next ∧ next.writeAll rest = (set', none) := by
  rw [writeAll] at h
  split at h
  · next next hwrite => exact ⟨next, hwrite, h⟩
  · cases h

theorem look_writeAll_beside {writes : List (String × String)} (hpath : IsBehind front path)
    (hbehind : ∀ w ∈ writes, IsBehind front w.1 ∧ w.1 ≠ path)
    (h : set.writeAll writes = (set', none)) : set'.look path = set.look path := by
  induction writes generalizing set with
  | nil =>
      cases h
      rfl
  | cons w rest ih =>
      obtain ⟨next, hwrite, hrest⟩ := writeAll_cons_ok h
      obtain ⟨⟨c, hc, hw⟩, hne⟩ := hbehind w List.mem_cons_self
      obtain ⟨c', hc', hpath'⟩ := hpath
      rw [ih (fun w hw => hbehind w (List.mem_cons_of_mem _ hw)) hrest]
      exact look_write_beside hw hc hpath' hc' hne.symm hwrite

/-- Of the files that have been written in turn to names behind the same components, each has the
text that was written to it last. -/
theorem look_writeAll {before after : List (String × String)}
    (hbehind : ∀ w ∈ before ++ (path, text) :: after, IsBehind front w.1)
    (hlast : ∀ w ∈ after, w.1 ≠ path)
    (h : set.writeAll (before ++ (path, text) :: after) = (set', none)) :
    set'.look path = .ok (.file text.toUTF8.data) := by
  induction before generalizing set with
  | nil =>
      obtain ⟨next, hwrite, hrest⟩ := writeAll_cons_ok h
      have hpath := hbehind (path, text) List.mem_cons_self
      have hafter : ∀ w ∈ after, IsBehind front w.1 ∧ w.1 ≠ path := by
        intro w hw
        exact ⟨hbehind w (List.mem_cons_of_mem _ hw), hlast w hw⟩
      rw [look_writeAll_beside hpath hafter hrest]
      obtain ⟨c, hc, hcomponents⟩ := hpath
      exact look_write_self hcomponents hc hwrite
  | cons w before ih =>
      obtain ⟨next, _, hrest⟩ := writeAll_cons_ok h
      exact ih (fun w hw => hbehind w (List.mem_cons_of_mem _ hw)) hrest

end FileSet

/-- A text that lies at a path is read from there. -/
theorem Lookup.readText_of_file {look : Lookup} {path text : String}
    (h : look path = .ok (.file text.toUTF8.data)) : look.readText path = .ok text := by
  have hread : look.read path = .ok text.toUTF8.data := by
    rw [read, h]
    rfl
  have hback : String.fromUTF8? ⟨text.toUTF8.data⟩ = some text := by
    have hvalid : ByteArray.IsValidUTF8 ⟨text.toUTF8.data⟩ := text.isValidUTF8
    rw [String.fromUTF8?, dif_pos hvalid]
    rfl
  simp only [readText, hread, bind, Except.bind, hback, pure, Except.pure]

end Disassembly
