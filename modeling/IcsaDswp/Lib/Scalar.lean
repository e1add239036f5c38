import Mathlib.Data.List.Basic
import Mathlib.Tactic.Common

/-!
# Values in memory and in files

A machine has a byte order. A file of records is written by a loop that appends one record in each
iteration; a loop that reads one record in each iteration gets them back (`foldlM_read`). For
machines of different byte orders, the bytes of a value are turned round (`turnRound_eq`).
-/

namespace IcsaDswp.Lib

variable {α β ι ρ σ : Type}

/-- Which byte of a value has the lowest address. -/
inductive ByteOrder where
  | little
  | big
  deriving DecidableEq

/-- The bytes of an object, from the bytes of its value, the least significant one first. -/
def ByteOrder.object (order : ByteOrder) (bytes : List β) : List β :=
  match order with
  | little => bytes
  | big => bytes.reverse

@[simp] theorem ByteOrder.length_object (order : ByteOrder) (bytes : List β) :
    (order.object bytes).length = bytes.length := by
  cases order with
  | little => rfl
  | big => exact List.length_reverse

/-- A type whose values consist of `size` bytes. -/
structure Scalar (β α : Type) where
  size : Nat
  /-- The least significant byte first. -/
  bytes : α → List β
  ofBytes : List β → α
  length_bytes : ∀ a, (bytes a).length = size
  ofBytes_bytes : ∀ a, ofBytes (bytes a) = a

/-- `for (i = 0; i < n; i++) dst[i] = src[n - i - 1];` -/
def turnRound (n : Nat) (src dst : List β) : List β :=
  (List.range n).foldl (fun dst i =>
    match src[n - i - 1]? with
    | none => dst
    | some b => dst.set i b) dst

theorem turnRound_eq {n : Nat} {src dst : List β} (hsrc : src.length = n) (hdst : dst.length = n) :
    turnRound n src dst = src.reverse := by
  -- the places before `m` have their bytes
  have hloop : ∀ m ≤ n, (List.range m).foldl (fun dst i =>
      match src[n - i - 1]? with
      | none => dst
      | some b => dst.set i b) dst = src.reverse.take m ++ dst.drop m := by
    intro m
    induction m with
    | zero => intro _; rfl
    | succ m ih =>
      intro hm
      have hlt : n - m - 1 < src.length := by omega
      have hrev : m < src.reverse.length := by rw [List.length_reverse]; omega
      have hbyte : src.reverse[m] = src[n - m - 1] := by
        rw [List.getElem_reverse]
        congr 1
        omega
      rw [List.range_succ, List.foldl_append, ih (by omega)]
      simp only [List.foldl_cons, List.foldl_nil, List.getElem?_eq_getElem hlt]
      have htake : (src.reverse.take m).length = m := by
        rw [List.length_take]
        omega
      rw [List.set_append_right _ _ (Nat.le_of_eq htake), htake, Nat.sub_self,
        List.drop_eq_getElem_cons (by omega : m < dst.length), List.set_cons_zero,
        List.take_succ_eq_append_getElem hrev, hbyte, List.append_assoc]
      rfl
  have hn := hloop n (Nat.le_refl n)
  rw [List.take_of_length_le (by rw [List.length_reverse]; omega),
    List.drop_eq_nil_of_le (by omega), List.append_nil] at hn
  exact hn

/-! ## Files -/

/-- `fread(ptr, size, 1, file)`: what is read, and the rest of the file. When less than `size` bytes
are left, what `ptr` points to is indeterminate. -/
def fread (size : Nat) (file : List β) : Option (List β × List β) :=
  if size ≤ file.length then some (file.take size, file.drop size) else none

theorem fread_append {size : Nat} {bytes : List β} (h : bytes.length = size) (rest : List β) :
    fread size (bytes ++ rest) = some (bytes, rest) := by
  subst h
  simp [fread]

/-- A loop that appends to a file. -/
theorem foldl_write {f : ι → List β} (l : List ι) (file : List β) :
    l.foldl (fun file i => file ++ f i) file = file ++ l.flatMap f := by
  induction l generalizing file with
  | nil => simp
  | cons i l ih => rw [List.foldl_cons, ih, List.flatMap_cons, List.append_assoc]

/-- **A loop that reads the records that another one has written.** -/
theorem foldlM_read {read : List β → Option (ρ × List β)} {write : ι → List β} {record : ι → ρ}
    (h : ∀ i rest, read (write i ++ rest) = some (record i, rest)) (next : σ → ι → ρ → σ)
    (l : List ι) (s : σ) (rest : List β) :
    l.foldlM (fun s i => (read s.2).map fun r => (next s.1 i r.1, r.2))
        (s, l.flatMap write ++ rest) =
      some (l.foldl (fun s i => next s i (record i)) s, rest) := by
  induction l generalizing s with
  | nil => rfl
  | cons i l ih =>
    rw [List.foldlM_cons, List.flatMap_cons, List.append_assoc]
    simp only [h, Option.map_some]
    exact ih (next s i (record i))

/-- A reader of records of `size` bytes, which fails when less are left. -/
def Takes (read : List β → Option (ρ × List β)) (size : Nat) : Prop :=
  ∀ file, (read file).map Prod.snd = if size ≤ file.length then some (file.drop size) else none

theorem takes_fread (size : Nat) : Takes (fread (β := β) size) size := by
  intro file
  unfold fread
  split_ifs <;> rfl

theorem Takes.map {read : List β → Option (ρ × List β)} {size : Nat} (h : Takes read size)
    (f : ρ → σ) : Takes (fun file => (read file).map fun r => (f r.1, r.2)) size := by
  intro file
  rw [← h file, Option.map_map]
  rfl

/-- One record after another. -/
theorem Takes.bind {read : List β → Option (ρ × List β)} {read' : ρ → List β → Option (σ × List β)}
    {m n : Nat} (h : Takes read m) (h' : ∀ r, Takes (read' r) n) :
    Takes (fun file => (read file).bind fun r => read' r.1 r.2) (m + n) := by
  intro file
  have hread := h file
  show ((read file).bind fun r => read' r.1 r.2).map Prod.snd = _
  by_cases hlong : m ≤ file.length
  · rw [if_pos hlong] at hread
    obtain ⟨r, hr, hrest⟩ := Option.map_eq_some_iff.mp hread
    rw [hr, Option.bind_some, h' r.1, hrest, List.length_drop, List.drop_drop]
    by_cases hfits : m + n ≤ file.length
    · rw [if_pos (by omega), if_pos hfits]
    · rw [if_neg (by omega), if_neg hfits]
  · rw [if_neg hlong] at hread
    rw [Option.map_eq_none_iff.mp hread, if_neg (by omega)]
    rfl

theorem takes_foldlM {read : List β → Option (ρ × List β)} {size : Nat} (h : Takes read size)
    (next : σ → ι → ρ → σ) (l : List ι) (s : σ) :
    Takes (fun file => l.foldlM (fun s i => (read s.2).map fun r => (next s.1 i r.1, r.2))
      (s, file)) (size * l.length) := by
  induction l generalizing s with
  | nil =>
    intro file
    simp
  | cons i l ih =>
    have hsize : size * (i :: l).length = size + size * l.length := by
      rw [List.length_cons, Nat.mul_succ, Nat.add_comm]
    rw [hsize]
    exact (h.map fun r => next s i r).bind ih

end IcsaDswp.Lib
