import Mathlib.Data.List.Basic
import Mathlib.Order.Basic
/-!
# A memory of bytes and its blocks

Bytes are read and written at their addresses, and a block is a range of
addresses. What is written to one block is read back from it and leaves
every block apart from it as it was. An allocator gives a block that is
apart from all that are in use, or none.
-/


namespace Memory

/-- The addresses from `base` on, `size` of them. -/
structure Block where
  base : ℕ
  size : ℕ
  deriving DecidableEq

namespace Block

/-- Every address of the first is one of the second. -/
def Within (b c : Block) : Prop := c.base ≤ b.base ∧ b.base + b.size ≤ c.base + c.size

/-- No address is in both. -/
def Apart (b c : Block) : Prop := b.base + b.size ≤ c.base ∨ c.base + c.size ≤ b.base

instance (b c : Block) : Decidable (Within b c) := inferInstanceAs (Decidable (_ ∧ _))

instance (b c : Block) : Decidable (Apart b c) := inferInstanceAs (Decidable (_ ∨ _))

theorem Within.refl (b : Block) : b.Within b := ⟨Nat.le_refl _, Nat.le_refl _⟩

theorem Within.trans {b c d : Block} (h : b.Within c) (h' : c.Within d) : b.Within d := by
  obtain ⟨h₁, h₂⟩ := h
  obtain ⟨h₁', h₂'⟩ := h'
  exact ⟨by omega, by omega⟩

theorem Apart.symm {b c : Block} (h : b.Apart c) : c.Apart b := Or.symm h

/-- What is within two that are apart is apart. -/
theorem Apart.within {b c b' c' : Block} (h : b.Apart c) (hb : b'.Within b) (hc : c'.Within c) :
    b'.Apart c' := by
  obtain ⟨hb₁, hb₂⟩ := hb
  obtain ⟨hc₁, hc₂⟩ := hc
  rcases h with h | h
  · exact Or.inl (by omega)
  · exact Or.inr (by omega)

/-- Two that begin at one address and have a byte each are not apart. -/
theorem Apart.base_ne {b c : Block} (h : b.Apart c) (hb : 0 < b.size) (hc : 0 < c.size) :
    b.base ≠ c.base := by
  intro heq
  rcases h with h | h <;> omega

end Block

variable {α : Type*}

/-- The `n` bytes that stand at `p`. -/
def load (m : ℕ → α) (p : ℕ) : ℕ → List α
  | 0 => []
  | n + 1 => m p :: load m (p + 1) n

/-- The bytes `l` written at `p`. -/
def store (m : ℕ → α) (p : ℕ) (l : List α) (x : ℕ) : α :=
  if p ≤ x then (l[x - p]?).getD (m x) else m x

variable {m m' : ℕ → α} {p q n : ℕ} {l : List α}

@[simp] theorem load_length : (load m p n).length = n := by
  induction n generalizing p with
  | zero => rfl
  | succ n ih => rw [load, List.length_cons, ih]

/-- Memories that agree on a block have the same bytes there. -/
theorem load_congr (h : ∀ x, p ≤ x → x < p + n → m' x = m x) : load m' p n = load m p n := by
  induction n generalizing p with
  | zero => rfl
  | succ n ih =>
    have hhead : m' p = m p := h p (Nat.le_refl p) (by omega)
    have htail : load m' (p + 1) n = load m (p + 1) n :=
      ih fun x hx hx' => h x (by omega) (by omega)
    rw [load, load, hhead, htail]

theorem store_before {x : ℕ} (h : x < p) : store m p l x = m x :=
  if_neg (by omega)

theorem store_after {x : ℕ} (h : p + l.length ≤ x) : store m p l x = m x := by
  have hnone : l[x - p]? = none := List.getElem?_eq_none (by omega)
  rw [store, if_pos (by omega), hnone, Option.getD_none]

theorem store_apart {x : ℕ} (h : x < p ∨ p + l.length ≤ x) : store m p l x = m x := by
  rcases h with h | h
  · exact store_before h
  · exact store_after h

theorem store_cons (a : α) (l : List α) :
    store m p (a :: l) = store (fun x => if x = p then a else m x) (p + 1) l := by
  funext x
  rcases Nat.lt_trichotomy x p with hlt | rfl | hgt
  · rw [store_before hlt, store_before (by omega), if_neg (by omega)]
  · rw [store_before (Nat.lt_succ_self x), store, if_pos (Nat.le_refl x), Nat.sub_self,
      List.getElem?_cons_zero, Option.getD_some, if_pos rfl]
  · have hpred : x - p = (x - (p + 1)) + 1 := by omega
    rw [store, store, if_pos (by omega), if_pos (by omega), hpred, List.getElem?_cons_succ,
      if_neg (by omega)]

/-- **What is written is read back.** -/
theorem load_store (m : ℕ → α) (p : ℕ) (l : List α) : load (store m p l) p l.length = l := by
  induction l generalizing m p with
  | nil => rfl
  | cons a l ih =>
    have hhead : store m p (a :: l) p = a := by
      rw [store, if_pos (Nat.le_refl p), Nat.sub_self, List.getElem?_cons_zero, Option.getD_some]
    rw [List.length_cons, load, hhead, store_cons, ih]

/-- A block apart from what is written keeps its bytes. -/
theorem load_store_apart (h : Block.Apart ⟨q, n⟩ ⟨p, l.length⟩) :
    load (store m p l) q n = load m q n := by
  refine load_congr fun x hx hx' => store_apart ?_
  rcases h with h | h
  · exact Or.inl (by dsimp only at h; omega)
  · exact Or.inr (by dsimp only at h; omega)

theorem load_add (m : ℕ → α) (p a b : ℕ) : load m p (a + b) = load m p a ++ load m (p + a) b := by
  induction a generalizing p with
  | zero => rw [Nat.zero_add, load, Nat.add_zero, List.nil_append]
  | succ a ih =>
    rw [Nat.add_right_comm, load, load, ih, List.cons_append, Nat.add_right_comm p 1 a,
      Nat.add_assoc p a 1]

/-- The beginning of what is written is read back. -/
theorem load_store_prefix (m : ℕ → α) (p : ℕ) (a b : List α) :
    load (store m p (a ++ b)) p a.length = a := by
  have hall := load_store m p (a ++ b)
  rw [List.length_append, load_add] at hall
  exact List.append_inj_left hall load_length

/-- Blocks of bytes written one after the other. -/
def storeAll (m : ℕ → α) (ws : List (ℕ × List α)) : ℕ → α :=
  ws.foldl (fun m w => store m w.1 w.2) m

theorem storeAll_append (ws ws' : List (ℕ × List α)) :
    storeAll m (ws ++ ws') = storeAll (storeAll m ws) ws' := List.foldl_append

/-- What every write keeps is kept by all of them. -/
theorem storeAll_keeps {P : (ℕ → α) → Prop} {ws : List (ℕ × List α)}
    (h : ∀ w ∈ ws, ∀ m, P m → P (store m w.1 w.2)) (hm : P m) : P (storeAll m ws) := by
  induction ws generalizing m with
  | nil => exact hm
  | cons w ws ih =>
    obtain ⟨hw, hws⟩ := List.forall_mem_cons.1 h
    exact ih hws (hw m hm)

/-- A block apart from all that is written keeps its bytes. -/
theorem load_storeAll_apart {ws : List (ℕ × List α)}
    (h : ∀ w ∈ ws, Block.Apart ⟨q, n⟩ ⟨w.1, w.2.length⟩) :
    load (storeAll m ws) q n = load m q n := by
  induction ws generalizing m with
  | nil => rfl
  | cons w ws ih =>
    obtain ⟨hw, hws⟩ := List.forall_mem_cons.1 h
    exact (ih hws).trans (load_store_apart hw)

section Strings

variable [Zero α]

/-- The bytes of `l` stand at `p` and a zero after them. -/
def StrAt (m : ℕ → α) (p : ℕ) (l : List α) : Prop :=
  load m p (l.length + 1) = l ++ [0] ∧ (0 : α) ∉ l

/-- The string stands as well where its bytes and its zero do. -/
theorem StrAt.congr (h : StrAt m p l) (hm : load m' q (l.length + 1) = load m p (l.length + 1)) :
    StrAt m' q l := ⟨hm.trans h.1, h.2⟩

/-- Behind a string another is written: the two stand there as one. -/
theorem StrAt.append {l' : List α} (h : StrAt m p l) (h' : (0 : α) ∉ l') :
    StrAt (store m (p + l.length) (l' ++ [0])) p (l ++ l') := by
  obtain ⟨hload, hnot⟩ := h
  have hfront : load (store m (p + l.length) (l' ++ [0])) p l.length = l := by
    have hsame : load (store m (p + l.length) (l' ++ [0])) p l.length = load m p l.length :=
      load_store_apart (Or.inl (Nat.le_refl _))
    rw [load_add] at hload
    rw [hsame]
    exact List.append_inj_left hload load_length
  have hback := load_store m (p + l.length) (l' ++ [0])
  refine ⟨?_, ?_⟩
  · rw [List.length_append, List.length_singleton] at hback
    rw [List.length_append, Nat.add_assoc, load_add, hfront, hback, List.append_assoc]
  · rw [List.mem_append, not_or]
    exact ⟨hnot, h'⟩

variable [DecidableEq α]

/-- The string at `p`: the bytes before the first zero, of `n` at most. -/
def strFrom (m : ℕ → α) : ℕ → ℕ → List α
  | 0, _ => []
  | n + 1, p => if m p = 0 then [] else m p :: strFrom m n (p + 1)

theorem StrAt.strFrom_eq (h : StrAt m p l) (hn : l.length < n) : strFrom m n p = l := by
  induction l generalizing p n with
  | nil =>
    obtain ⟨hload, -⟩ := h
    have hp : m p = 0 := List.head_eq_of_cons_eq hload
    obtain ⟨k, rfl⟩ : ∃ k, n = k + 1 := ⟨n - 1, by simp at hn; omega⟩
    rw [strFrom, if_pos hp]
  | cons a l ih =>
    obtain ⟨hload, hnot⟩ := h
    have hp : m p = a := List.head_eq_of_cons_eq hload
    have htail : load m (p + 1) (l.length + 1) = l ++ [0] := List.tail_eq_of_cons_eq hload
    have hne : a ≠ 0 := fun ha => hnot (ha ▸ List.mem_cons_self)
    have hrest : StrAt m (p + 1) l := ⟨htail, fun hmem => hnot (List.mem_cons_of_mem a hmem)⟩
    rw [List.length_cons] at hn
    obtain ⟨k, rfl⟩ : ∃ k, n = k + 1 := ⟨n - 1, by omega⟩
    rw [strFrom, hp, if_neg hne, ih hrest (by omega)]

theorem zero_notMem_strFrom : (0 : α) ∉ strFrom m n p := by
  induction n generalizing p with
  | zero => exact List.not_mem_nil
  | succ n ih =>
    rw [strFrom]
    by_cases hp : m p = 0
    · rw [if_pos hp]
      exact List.not_mem_nil
    · rw [if_neg hp, List.mem_cons, not_or]
      exact ⟨fun h => hp h.symm, ih⟩

/-- **A string that ends.** Where there is a zero, a string stands up to it. -/
theorem exists_strAt (h : m (p + n) = 0) : ∃ l, StrAt m p l ∧ l.length ≤ n := by
  induction n generalizing p with
  | zero =>
    refine ⟨[], ⟨?_, List.not_mem_nil⟩, Nat.le_refl 0⟩
    show [m p] = [0]
    rw [← Nat.add_zero p, h]
  | succ n ih =>
    by_cases hp : m p = 0
    · refine ⟨[], ⟨?_, List.not_mem_nil⟩, Nat.zero_le _⟩
      show [m p] = [0]
      rw [hp]
    · obtain ⟨l, ⟨hload, hnot⟩, hlen⟩ := @ih (p + 1) (by rw [Nat.add_right_comm]; exact h)
      refine ⟨m p :: l, ⟨?_, ?_⟩, Nat.succ_le_succ hlen⟩
      · rw [List.length_cons, load, hload, List.cons_append]
      · rw [List.mem_cons, not_or]
        exact ⟨fun h => hp h.symm, hnot⟩

/-- A string stands once at its place. -/
theorem StrAt.unique {l' : List α} (h : StrAt m p l) (h' : StrAt m p l') : l = l' := by
  have hl : strFrom m (l.length + l'.length + 1) p = l := h.strFrom_eq (by omega)
  have hl' : strFrom m (l.length + l'.length + 1) p = l' := h'.strFrom_eq (by omega)
  exact hl.symm.trans hl'

end Strings

/-- An allocator: of the blocks that are in use it is told, and what it
gives is apart from them and from the null pointer. -/
structure Allocator where
  malloc : List Block → ℕ → Option ℕ
  ne_zero : ∀ used n p, malloc used n = some p → p ≠ 0
  apart : ∀ used n p, malloc used n = some p → ∀ b ∈ used, Block.Apart ⟨p, n⟩ b ∧ b.base ≠ p

/-- The first address after every block in use. -/
def top : List Block → ℕ
  | [] => 1
  | b :: used => max (b.base + b.size + 1) (top used)

theorem top_pos (used : List Block) : 0 < top used := by
  cases used with
  | nil => exact Nat.one_pos
  | cons b used => exact Nat.lt_of_lt_of_le (Nat.succ_pos _) (Nat.le_max_left _ _)

theorem lt_top {used : List Block} {b : Block} (h : b ∈ used) : b.base + b.size < top used := by
  induction used with
  | nil => exact absurd h List.not_mem_nil
  | cons c used ih =>
    rw [top]
    rcases List.mem_cons.1 h with rfl | h
    · omega
    · have hrest := ih h
      omega

/-- The allocator that goes on after the last block. -/
def bump : Allocator where
  malloc used _ := some (top used)
  ne_zero used _ p h := by
    have hpos := top_pos used
    have hp := Option.some.inj h
    omega
  apart used n p h b hb := by
    have hlt := lt_top hb
    have hp := Option.some.inj h
    exact ⟨Or.inr (by dsimp only; omega), by omega⟩

end Memory
