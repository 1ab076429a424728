import Vklib.Fs.Functions

/-!
# What is read back from a file

`create_file` hands its text to `fwrite` as a C string and looks at no result,
and `read_file` hands the buffer of `fread` to Lua as a C string.  So a text
comes back exactly when it has no NUL, the write takes it whole, and the read is
not refused and delivers it whole.

The proof follows the file: `fopen` for writing leaves a file at the end of the
path (`Posix.Written`), so the walk of the second `fopen` ends there.
-/

namespace Vklib.Fs

open Vklib.Posix

section

variable {K : Kernel} {path contents : Bytes} {w w' : World}

theorem writeFile_eq_true (hpath : NulFree path)
    (h : writeFile K path contents w = .ok (w', .boolean true)) :
    ∃ loc, Written K path loc (contents.take (K.accepts path contents)) w.fs w'.fs := by
  unfold writeFile at h
  cases hopen : openWrite K w.fs path with
  | error e => simp [hopen] at h
  | undefined => simp [hopen] at h
  | outOfFuel => simp [hopen] at h
  | ok p =>
    obtain ⟨fs, loc⟩ := p
    simp only [hopen, Outcome.ok.injEq, Prod.mk.injEq, and_true] at h
    rw [← h]
    exact ⟨loc, written_of_openWrite hpath hopen _⟩

/-- A successful `create_file` wrote what the kernel took of the text, after the
directory was there or was made. -/
theorem fs_create_file_eq_true (h : fs_create_file K path contents w = .ok (w', .boolean true)) :
    ∃ made loc, ensureDir K (dirPart (cString path)) w = .ok (made, true) ∧
      Written K (cString path) loc
        ((cString contents).take (K.accepts (cString path) (cString contents))) made.fs w'.fs := by
  unfold fs_create_file at h
  by_cases hempty : cString path = []
  · simp [hempty] at h
  simp only [if_neg hempty] at h
  obtain ⟨⟨made, found⟩, hmake, hwrite⟩ := Outcome.bind_eq_ok_iff.mp h
  cases found with
  | false => simp [World.failure] at hwrite
  | true =>
    obtain ⟨loc, hwritten⟩ := writeFile_eq_true (nulFree_cString path) hwrite
    exact ⟨made, loc, hmake, hwritten⟩

/-- A file at the end of a path is opened for reading unless that is refused. -/
theorem openRead_of_written {loc : Loc} {text : Bytes} {s s' : FS}
    (h : Written K path loc text s s') :
    openRead K s' path =
      match K.refuses .openRead path with
      | some e => .error e
      | none => .ok (.file text) := by
  obtain ⟨left, hresolve⟩ := h.leads
  unfold openRead fopen leadsToFifo attempt
  rw [hresolve]
  simp only [Except.bind, h.lookup, if_true]
  cases K.refuses .openRead path with
  | none => simp
  | some e => simp

end

/-! ## The buffer of a read -/

theorem readBuffer_of_le (heap : Nat → UInt8) {content : Bytes} {count : Nat}
    (h : content.length ≤ count) : readBuffer heap content count = content := by
  simp [readBuffer, List.take_of_length_le h, Nat.sub_eq_zero_of_le h]

/-- In a zeroed buffer, what is read is what was delivered. -/
theorem cString_readBuffer_zero {content : Bytes} (hcontent : NulFree content) (count : Nat) :
    cString (readBuffer (fun _ => 0) content count) = content.take count := by
  have htake : NulFree (content.take count) := fun h => hcontent (List.mem_of_mem_take h)
  unfold readBuffer
  cases hrest : content.length - count with
  | zero => simpa using cString_eq_self htake
  | succ n =>
    rw [List.range_succ_eq_map, List.map_cons]
    exact cString_append_nul htake _

/-- A text comes back byte for byte, whatever the read buffer held before,
exactly when it has no NUL, the write takes all of it, and the read is made and
delivers all of it. -/
theorem read_file_after_create_file_iff {K : Kernel} {path contents : Bytes} {w w' : World}
    (h : fs_create_file K path contents w = .ok (w', .boolean true)) :
    (∀ heap, ∃ w'', fs_read_file K heap path w' = .ok (w'', .string contents)) ↔
      NulFree contents ∧ contents.length ≤ K.accepts (cString path) contents ∧
        K.refuses .openRead (cString path) = none ∧
          contents.length ≤ K.delivers (cString path) contents := by
  obtain ⟨made, loc, -, hwritten⟩ := fs_create_file_eq_true h
  have hread (heap : Nat → UInt8) := openRead_of_written hwritten
  constructor
  · intro hback
    obtain ⟨w'', hzero⟩ := hback fun _ => 0
    unfold fs_read_file at hzero
    rw [openRead_of_written hwritten] at hzero
    cases hrefuses : K.refuses .openRead (cString path) with
    | some e => simp [hrefuses] at hzero
    | none =>
      have htext : NulFree ((cString contents).take (K.accepts (cString path) (cString contents))) :=
        fun hnul => nulFree_cString contents (List.mem_of_mem_take hnul)
      simp only [hrefuses, cString_readBuffer_zero htext, Outcome.ok.injEq, Prod.mk.injEq,
        Reply.string.injEq] at hzero
      have hnul : NulFree contents := by
        rw [← hzero.2]
        exact fun hnul => htext (List.mem_of_mem_take hnul)
      rw [cString_eq_self hnul] at hzero
      have haccepts : contents.length ≤ K.accepts (cString path) contents := by
        have hlength := congrArg List.length hzero.2
        simp only [List.length_take] at hlength
        omega
      rw [List.take_of_length_le haccepts] at hzero
      have hlength := congrArg List.length hzero.2
      simp only [List.length_take] at hlength
      exact ⟨hnul, haccepts, rfl, by omega⟩
  · rintro ⟨hnul, haccepts, hrefuses, hdelivers⟩ heap
    rw [cString_eq_self hnul, List.take_of_length_le haccepts] at hwritten
    refine ⟨w', ?_⟩
    unfold fs_read_file
    rw [openRead_of_written hwritten, hrefuses]
    simp [readBuffer_of_le heap hdelivers, cString_eq_self hnul]

theorem short_text_comes_back :
    ∃ w', fs_create_file permissive (bytes "f") (bytes "ab") ⟨FS.bare, .ENOENT⟩ =
        .ok (w', .boolean true) ∧
      ∀ heap, ∃ w'', fs_read_file permissive heap (bytes "f") w' =
        .ok (w'', .string (bytes "ab")) := by
  have hcreate : ∃ w', fs_create_file permissive (bytes "f") (bytes "ab") ⟨FS.bare, .ENOENT⟩ =
      .ok (w', .boolean true) := ⟨_, rfl⟩
  obtain ⟨w', h⟩ := hcreate
  exact ⟨w', h, (read_file_after_create_file_iff h).mpr
    ⟨by decide, by decide, rfl, by decide⟩⟩

theorem nul_cuts_the_text :
    ¬ ∀ w', fs_create_file permissive (bytes "f") [97, 0, 98] ⟨FS.bare, .ENOENT⟩ =
        .ok (w', .boolean true) →
      ∀ heap, ∃ w'', fs_read_file permissive heap (bytes "f") w' =
        .ok (w'', .string [97, 0, 98]) := by
  intro h
  obtain ⟨w'', hread⟩ := h _ rfl fun _ => 0
  have hstring := (Prod.mk.inj (Outcome.ok.inj hread)).2
  revert hstring
  decide +kernel

end Vklib.Fs
