import Mathlib

/-!
# Writing JSON

The bytes a JSON writer emits for numbers, byte strings, arrays and objects. A byte string is written
in base64, whose alphabet has no brace, and field names are plain, so the opening braces of a text are
its objects. The length of a text is bounded by the sizes of what it is made of.
-/

namespace Json

abbrev Text := List (Fin 256)

local instance byteSize : NeZero 256 := ⟨by decide⟩

def quote : Fin 256 := 34
def comma : Fin 256 := 44
def colon : Fin 256 := 58
def openBrace : Fin 256 := 123

/-! ## Scalars -/

/-- A number in decimal digits. -/
def num (n : Nat) : Text :=
  if n = 0 then [48] else (Nat.digits 10 n).reverse.map fun d => Fin.ofNat 256 (48 + d)

/-- The base64 character of six bits. -/
def sextet (n : Nat) : Fin 256 :=
  if n < 26 then Fin.ofNat 256 (65 + n)
  else if n < 52 then Fin.ofNat 256 (71 + n)
  else if n < 62 then Fin.ofNat 256 (n - 4)
  else if n = 62 then 43
  else 47

/-- Three bytes in four characters; the last group is padded. -/
def base64 : List (Fin 256) → Text
  | [] => []
  | [a] => [sextet (a / 4), sextet (a % 4 * 16), 61, 61]
  | [a, b] => [sextet (a / 4), sextet (a % 4 * 16 + b / 16), sextet (b % 16 * 4), 61]
  | a :: b :: c :: rest =>
    sextet (a / 4) :: sextet (a % 4 * 16 + b / 16) :: sextet (b % 16 * 4 + c / 64) :: sextet (c % 64)
      :: base64 rest

def str (t : Text) : Text := quote :: (t ++ [quote])

def bytes (b : List (Fin 256)) : Text := str (base64 b)

/-! ## Arrays and objects -/

/-- The parts, with commas between them. -/
def joined : List Text → Text
  | [] => []
  | [x] => x
  | x :: y :: rest => x ++ comma :: joined (y :: rest)

def arr (items : List Text) : Text := 91 :: (joined items ++ [93])

def field (name value : Text) : Text := str name ++ colon :: value

def obj (fields : List (Text × Text)) : Text :=
  openBrace :: (joined (fields.map fun f => field f.1 f.2) ++ [125])

/-! ## Opening braces -/

theorem sextet_ne (n : Nat) : sextet n ≠ openBrace := by
  unfold sextet openBrace
  split_ifs with h26 h52 h62 h
  · interval_cases n <;> decide
  · interval_cases n <;> decide
  · interval_cases n <;> decide
  · decide
  · decide

@[simp] theorem count_num (n : Nat) : (num n).count openBrace = 0 := by
  unfold num
  split_ifs
  · decide
  · refine List.count_eq_zero.mpr fun hmem => ?_
    obtain ⟨d, hd, heq⟩ := List.mem_map.mp hmem
    have hlt : d < 10 := Nat.digits_lt_base (by decide) (List.mem_reverse.mp hd)
    interval_cases d <;> exact absurd heq (by decide)

theorem count_base64 (b : List (Fin 256)) : (base64 b).count openBrace = 0 := by
  have hpad : (61 : Fin 256) ≠ openBrace := by decide
  fun_induction base64 b with
  | case1 => rfl
  | case2 a => simp [sextet_ne, hpad]
  | case3 a b => simp [sextet_ne, hpad]
  | case4 a b c rest ih => simp [sextet_ne, ih]

@[simp] theorem count_str (t : Text) : (str t).count openBrace = t.count openBrace := by
  have hquote : quote ≠ openBrace := by decide
  simp [str, hquote]

@[simp] theorem count_bytes (b : List (Fin 256)) : (bytes b).count openBrace = 0 := by
  rw [bytes, count_str, count_base64]

theorem count_joined (items : List Text) :
    (joined items).count openBrace = (items.map (List.count openBrace)).sum := by
  have hcomma : comma ≠ openBrace := by decide
  fun_induction joined items with
  | case1 => rfl
  | case2 x => simp
  | case3 x y rest ih => simp [hcomma, ih]

@[simp] theorem count_arr (items : List Text) :
    (arr items).count openBrace = (items.map (List.count openBrace)).sum := by
  have hopen : (91 : Fin 256) ≠ openBrace := by decide
  have hclose : (93 : Fin 256) ≠ openBrace := by decide
  simp [arr, hopen, hclose, count_joined]

theorem count_obj {fields : List (Text × Text)} (hnames : ∀ f ∈ fields, openBrace ∉ f.1) :
    (obj fields).count openBrace = 1 + (fields.map fun f => f.2.count openBrace).sum := by
  have hclose : (125 : Fin 256) ≠ openBrace := by decide
  have hcolon : colon ≠ openBrace := by decide
  have hfields : ∀ f ∈ fields, (field f.1 f.2).count openBrace = f.2.count openBrace := by
    intro f hf
    have hname : f.1.count openBrace = 0 := List.count_eq_zero.mpr (hnames f hf)
    simp [field, hname, hcolon]
  rw [obj, List.count_cons_self, List.count_append, count_joined, List.map_map,
    List.map_congr_left (g := fun f => f.2.count openBrace) hfields, add_comm]
  simp [hclose]

/-! ## Lengths -/

theorem length_num_le {n k : Nat} (hk : 0 < k) (h : n < 10 ^ k) : (num n).length ≤ k := by
  unfold num
  split_ifs
  · exact hk
  · rw [List.length_map, List.length_reverse]
    exact (Nat.digits_length_le_iff (by decide) n).mpr h

theorem length_base64 (b : List (Fin 256)) : (base64 b).length = 4 * ((b.length + 2) / 3) := by
  fun_induction base64 b with
  | case1 => rfl
  | case2 a => simp
  | case3 a b => simp
  | case4 a b c rest ih =>
    simp only [List.length_cons, ih]
    omega

@[simp] theorem length_str (t : Text) : (str t).length = t.length + 2 := by
  simp [str]

theorem length_bytes (b : List (Fin 256)) : (bytes b).length = 4 * ((b.length + 2) / 3) + 2 := by
  rw [bytes, length_str, length_base64]

theorem length_joined_le (items : List Text) :
    (joined items).length ≤ (items.map fun x => x.length + 1).sum := by
  fun_induction joined items with
  | case1 => exact Nat.le_refl 0
  | case2 x => simp
  | case3 x y rest ih =>
    simp only [List.length_append, List.length_cons, List.map_cons, List.sum_cons] at ih ⊢
    omega

theorem length_arr_le (items : List Text) {k : Nat} (h : ∀ x ∈ items, x.length ≤ k) :
    (arr items).length ≤ items.length * (k + 1) + 2 := by
  have hsum : (items.map fun x => x.length + 1).sum ≤ items.length * (k + 1) := by
    have hall : ∀ n ∈ items.map fun x => x.length + 1, n ≤ k + 1 := by
      intro n hn
      obtain ⟨x, hx, rfl⟩ := List.mem_map.mp hn
      exact Nat.succ_le_succ (h x hx)
    simpa using List.sum_le_card_nsmul _ (k + 1) hall
  have hjoined := length_joined_le items
  simp only [arr, List.length_cons, List.length_append, List.length_nil]
  omega

theorem length_obj_le (fields : List (Text × Text)) :
    (obj fields).length ≤ (fields.map fun f => f.1.length + f.2.length + 4).sum + 2 := by
  have hjoined := length_joined_le (fields.map fun f => field f.1 f.2)
  have hmap : (fields.map fun f => field f.1 f.2).map (fun x => x.length + 1)
      = fields.map fun f => f.1.length + f.2.length + 4 := by
    rw [List.map_map]
    refine List.map_congr_left fun f _ => ?_
    simp only [Function.comp, field, List.length_append, length_str, List.length_cons]
    omega
  rw [hmap] at hjoined
  simp only [obj, List.length_cons, List.length_append, List.length_nil]
  omega

end Json
