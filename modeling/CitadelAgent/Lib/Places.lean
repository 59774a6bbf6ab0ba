import Mathlib

/-!
# Things in one place

Things numbered in the order in which they are made, each in at most one place until it is spent.

* `Single at_ spent made` : `at_ p n` says that thing `n` is at `p`.
-/

namespace Places

structure Single {P : Type} (at_ : P → Nat → Prop) (spent : List Nat) (made : Nat) : Prop where
  one : ∀ p q n, at_ p n → at_ q n → p = q
  fresh : ∀ p n, at_ p n → n < made ∧ n ∉ spent
  once : spent.Nodup
  below : ∀ n ∈ spent, n < made

variable {P : Type} {at_ at' : P → Nat → Prop} {spent spent' : List Nat} {made made' : Nat}

theorem Single.shrink (h : Single at_ spent made) (hat : ∀ p n, at' p n → at_ p n) : Single at' spent made where
  one p q n hp hq := h.one p q n (hat p n hp) (hat q n hq)
  fresh p n hp := h.fresh p n (hat p n hp)
  once := h.once
  below := h.below

theorem Single.make (h : Single at_ spent made) {b : P} (hat : ∀ p n, at' p n → at_ p n ∨ p = b ∧ n = made) :
    Single at' spent (made + 1) where
  one p q n hp hq := by
    have hnew : ∀ p n, at_ p n → n ≠ made := fun p n hp => (h.fresh p n hp).1.ne
    rcases hat p n hp with hp | ⟨hp, hn⟩ <;> rcases hat q n hq with hq | ⟨hq, hn'⟩
    · exact h.one p q n hp hq
    · exact absurd hn' (hnew p n hp)
    · exact absurd hn (hnew q n hq)
    · rw [hp, hq]
  fresh p n hp := by
    rcases hat p n hp with hp | ⟨-, rfl⟩
    · exact ⟨Nat.lt_succ_of_lt (h.fresh p n hp).1, (h.fresh p n hp).2⟩
    · exact ⟨Nat.lt_succ_self _, fun hn => (h.below _ hn).ne rfl⟩
  once := h.once
  below n hn := Nat.lt_succ_of_lt (h.below n hn)

theorem Single.move (h : Single at_ spent made) {a b : P} {thing : Nat} (hthing : at_ a thing)
    (hat : ∀ p n, at' p n → at_ p n ∧ p ≠ a ∨ p = b ∧ n = thing) : Single at' spent made := by
  have hmoved : ∀ p n, at_ p n → p ≠ a → n ≠ thing := by
    rintro p n hp hne rfl
    exact hne (h.one p a n hp hthing)
  constructor
  · intro p q n hp hq
    rcases hat p n hp with ⟨hp, hne⟩ | ⟨hp, hn⟩ <;> rcases hat q n hq with ⟨hq, hne'⟩ | ⟨hq, hn'⟩
    · exact h.one p q n hp hq
    · exact absurd hn' (hmoved p n hp hne)
    · exact absurd hn (hmoved q n hq hne')
    · rw [hp, hq]
  · intro p n hp
    rcases hat p n hp with ⟨hp, -⟩ | ⟨-, rfl⟩
    · exact h.fresh p n hp
    · exact h.fresh a n hthing
  · exact h.once
  · exact h.below

theorem Single.gather (h : Single at_ spent made) {d : P} (moved : Nat → Prop) (hmoved : ∀ n, moved n → ∃ p, at_ p n)
    (hat : ∀ p n, at' p n → at_ p n ∧ (moved n → p = d) ∨ p = d ∧ moved n) : Single at' spent made where
  one p q n hp hq := by
    rcases hat p n hp with ⟨hp, hd⟩ | ⟨hp, hn⟩ <;> rcases hat q n hq with ⟨hq, hd'⟩ | ⟨hq, hn'⟩
    · exact h.one p q n hp hq
    · rw [hd hn', hq]
    · rw [hd' hn, hp]
    · rw [hp, hq]
  fresh p n hp := by
    rcases hat p n hp with ⟨hp, -⟩ | ⟨-, hn⟩
    · exact h.fresh p n hp
    · obtain ⟨q, hq⟩ := hmoved n hn
      exact h.fresh q n hq
  once := h.once
  below := h.below

theorem Single.spend (h : Single at_ spent made) {a : P} {thing : Nat} (hthing : at_ a thing)
    (hat : ∀ p n, at' p n → at_ p n ∧ p ≠ a) : Single at' (thing :: spent) made := by
  constructor
  · exact fun p q n hp hq => h.one p q n (hat p n hp).1 (hat q n hq).1
  · intro p n hp
    have hne : n ≠ thing := by
      rintro rfl
      exact (hat p n hp).2 (h.one p a n (hat p n hp).1 hthing)
    exact ⟨(h.fresh p n (hat p n hp).1).1, List.not_mem_cons_of_ne_of_not_mem hne (h.fresh p n (hat p n hp).1).2⟩
  · exact List.nodup_cons.mpr ⟨(h.fresh a thing hthing).2, h.once⟩
  · intro n hn
    rcases List.mem_cons.mp hn with rfl | hn
    · exact (h.fresh a n hthing).1
    · exact h.below n hn

end Places
