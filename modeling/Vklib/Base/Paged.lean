import Vklib.Base.Buffer

/-!
# A text in pages

`page cs i s` is the stretch number `i` of a text that is cut into stretches of `cs`
bytes, of which the last one may be shorter (`length_page`).  The pages make up the text
(`pages_flatten`), and a write inside one page is a write to that page and leaves the
others alone (`page_put`, `page_put_of_ne`).
-/

namespace Vklib.Paged

open Buffer

/-- The number of pages of `cs` bytes that `n` bytes take. -/
def pages (cs n : Nat) : Nat := (n + cs - 1) / cs

/-- The bytes of one page. -/
def page (cs i : Nat) (s : Bytes) : Bytes := (s.drop (i * cs)).take cs

variable {cs : Nat} {s t : Bytes}

theorem length_page (cs i : Nat) (s : Bytes) :
    (page cs i s).length = min cs (s.length - i * cs) := by
  rw [page, List.length_take, List.length_drop]

/-- A page exists when the text reaches into it. -/
theorem lt_pages_iff (hcs : 0 < cs) {i n : Nat} : i < pages cs n ↔ i * cs < n := by
  rw [pages, ← Nat.succ_le_iff, Nat.le_div_iff_mul_le hcs, Nat.succ_mul]
  omega

theorem pages_le_iff (hcs : 0 < cs) {i n : Nat} : pages cs n ≤ i ↔ n ≤ i * cs := by
  rw [← Nat.not_lt, lt_pages_iff hcs, Nat.not_lt]

theorem pages_mono (cs : Nat) {n m : Nat} (h : n ≤ m) : pages cs n ≤ pages cs m :=
  Nat.div_le_div_right (by omega)

theorem page_eq_nil (hle : s.length ≤ i * cs) : page cs i s = [] := by
  rw [page, List.drop_eq_nil_of_le hle, List.take_nil]

/-- The pages of a text make it up. -/
theorem pages_flatten (hcs : 0 < cs) (s : Bytes) :
    ((List.range (pages cs s.length)).map fun i => page cs i s).flatten = s := by
  have hpages : ∀ n, ((List.range n).map fun i => page cs i s).flatten = s.take (n * cs) := by
    intro n
    induction n with
    | zero => simp
    | succ n ih =>
      rw [List.range_succ, List.map_append, List.flatten_append, ih, Nat.succ_mul, List.take_add]
      simp [page]
  rw [hpages, List.take_of_length_le]
  exact (pages_le_iff hcs).mp (le_refl _)

/-! ## Writing -/

theorem length_put_of_le {i : Nat} (h : i ≤ s.length) :
    (put s i t).length = max s.length (i + t.length) := by
  simp only [put, List.length_append, List.length_take, List.length_drop]
  omega

/-- A write right behind a text. -/
theorem put_length (s t : Bytes) : put s s.length t = s ++ t := by
  simp [put]

/-- A byte after a write. -/
theorem getElem?_put {i : Nat} (h : i ≤ s.length) (j : Nat) :
    (put s i t)[j]? = if j < i then s[j]? else if j < i + t.length then t[j - i]? else s[j]? := by
  have hlen : (s.take i).length = i := by rw [List.length_take, Nat.min_eq_left h]
  rw [put, List.getElem?_append, hlen]
  split_ifs with hfront hin
  · rw [List.getElem?_take_of_lt hfront]
  · rw [List.getElem?_append_left (by omega)]
  · rw [List.getElem?_append_right (by omega), List.getElem?_drop]
    congr 1
    omega

theorem getElem?_page (i j : Nat) :
    (page cs i s)[j]? = if j < cs then s[i * cs + j]? else none := by
  rw [page]
  split_ifs with hj
  · rw [List.getElem?_take_of_lt hj, List.getElem?_drop]
  · rw [List.getElem?_take_eq_none (by omega)]

/-- A write inside a page is a write to that page. -/
theorem page_put {i m : Nat} (hi : i ≤ s.length) (hfrom : m * cs ≤ i)
    (hto : i + t.length ≤ m * cs + cs) :
    page cs m (put s i t) = put (page cs m s) (i - m * cs) t := by
  have hin : i - m * cs ≤ (page cs m s).length := by
    rw [length_page]
    omega
  refine List.ext_getElem? fun j => ?_
  rw [getElem?_page, getElem?_put hi, getElem?_put hin, getElem?_page]
  have hindex : m * cs + j - i = j - (i - m * cs) := by omega
  rw [hindex]
  split_ifs <;> first | rfl | omega

/-- It leaves the other pages alone. -/
theorem page_put_of_ne {i j m : Nat} (hi : i ≤ s.length) (hfrom : m * cs ≤ i)
    (hto : i + t.length ≤ m * cs + cs) (hj : j ≠ m) : page cs j (put s i t) = page cs j s := by
  have hapart : j * cs + cs ≤ m * cs ∨ m * cs + cs ≤ j * cs := by
    rcases Nat.lt_or_gt_of_ne hj with hlt | hgt
    · exact Or.inl (Nat.succ_mul j cs ▸ Nat.mul_le_mul_right cs hlt)
    · exact Or.inr (Nat.succ_mul m cs ▸ Nat.mul_le_mul_right cs hgt)
  refine List.ext_getElem? fun b => ?_
  rw [getElem?_page, getElem?_page, getElem?_put hi]
  split_ifs <;> first | rfl | omega

/-- A write and one right behind it are one write. -/
theorem put_put {i : Nat} (u : Bytes) (h : i ≤ s.length) :
    put (put s i t) (i + t.length) u = put s i (t ++ u) := by
  have hin : i + t.length ≤ (put s i t).length := by
    rw [length_put_of_le h]
    omega
  refine List.ext_getElem? fun j => ?_
  rw [getElem?_put hin, getElem?_put h, getElem?_put h, List.length_append, List.getElem?_append]
  have hindex : j - i - t.length = j - (i + t.length) := by omega
  rw [hindex]
  split_ifs <;> first | rfl | omega

end Vklib.Paged
