/-!
Binary search for the end of the stretch of entries, from the first on, that satisfy a test.
-/

namespace AccessTrace.Search

/-- Narrows `[low, high)` down to the first place that fails `p`; the entries before `low` satisfy
it and those from `high` on do not. -/
def narrow {α : Type} (p : α → Bool) (xs : Array α) (low high : Nat) (h : high ≤ xs.size) : Nat :=
  if lt : low < high then
    let middle := low + (high - low) / 2
    have inside : middle < xs.size := by omega
    if p xs[middle] then narrow p xs (middle + 1) high h
    else narrow p xs low middle (by omega)
  else low
termination_by high - low

/-- The number of entries in front of the first that fails `p`, where none satisfies `p` behind
it. -/
def partitionPoint {α : Type} (p : α → Bool) (xs : Array α) : Nat :=
  narrow p xs 0 xs.size (Nat.le_refl _)

theorem narrow_eq {α : Type} {p : α → Bool} {xs : Array α} {low high n : Nat} (h : high ≤ xs.size)
    (holds : ∀ i (hi : i < xs.size), i < n → p xs[i] = true)
    (fails : ∀ i (hi : i < xs.size), n ≤ i → p xs[i] = false) (hlow : low ≤ n) (hhigh : n ≤ high) :
    narrow p xs low high h = n := by
  fun_induction narrow p xs low high h with
  | case1 low high h lt middle _ hp ih =>
    apply ih
    · apply Nat.lt_of_not_le
      intro hn
      simp [fails middle (by omega) hn] at hp
    · exact hhigh
  | case2 low high h lt middle _ hp ih =>
    apply ih hlow
    apply Nat.le_of_not_lt
    intro hn
    exact hp (holds middle (by omega) hn)
  | case3 => omega

theorem partitionPoint_eq {α : Type} {p : α → Bool} {xs : Array α} {n : Nat} (hn : n ≤ xs.size)
    (holds : ∀ i (hi : i < xs.size), i < n → p xs[i] = true)
    (fails : ∀ i (hi : i < xs.size), n ≤ i → p xs[i] = false) : partitionPoint p xs = n :=
  narrow_eq _ holds fails (Nat.zero_le _) hn

end AccessTrace.Search
