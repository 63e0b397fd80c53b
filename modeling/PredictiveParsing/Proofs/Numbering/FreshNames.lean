import Mathlib
import PredictiveParsing.Proofs.Numbering.SymbolTable

/-!
# Fresh names

A name gets primes until no symbol has it. Names with different numbers of primes are different, so
that among one more of them than there are taken names one is free. The search finds the first free
one, and it would find no other if it could look further than its bound.

* `withPrimes`, `withPrimes_injective`: a name with some primes;
* `FirstFree`, **`exists_firstFree`**: the least number of primes that makes a name free;
* `Freshens`: the search without a bound; `FirstFree.freshens_iff`, **`FirstFree.freshName_eq`**:
  both searches find this name;
* **`freshName_exact`**: the fresh names of a numbered grammar, and that of its augmented start.
-/

namespace PredictiveParsing

variable {taken : List Text} {base name : Text} {k : ℕ}

/-! ## Names with primes -/

/-- A name with some primes. -/
def withPrimes (base : Text) (k : ℕ) : Text := base ++ List.replicate k '\''

theorem withPrimes_zero (base : Text) : withPrimes base 0 = base := by
  rw [withPrimes, List.replicate_zero, List.append_nil]

theorem withPrimes_concat (base : Text) (k : ℕ) :
    withPrimes (base ++ ['\'']) k = withPrimes base (k + 1) := by
  rw [withPrimes, withPrimes, List.replicate_succ, List.append_assoc, List.singleton_append]

theorem withPrimes_injective (base : Text) : Function.Injective (withPrimes base) := by
  intro j k h
  have hlength := congrArg List.length h
  simpa [withPrimes] using hlength

/-- As many primes as are needed for a free name, and no more. -/
def FirstFree (taken : List Text) (base : Text) (k : ℕ) : Prop :=
  IsLeast {k | withPrimes base k ∉ taken} k

theorem FirstFree.notMem (h : FirstFree taken base k) : withPrimes base k ∉ taken := h.1

theorem FirstFree.mem (h : FirstFree taken base (k + 1)) : base ∈ taken := by
  by_contra hfree
  rw [← withPrimes_zero base] at hfree
  exact Nat.not_succ_le_zero k (h.2 hfree)

theorem FirstFree.concat (h : FirstFree taken base (k + 1)) :
    FirstFree taken (base ++ ['\'']) k := by
  refine ⟨?_, fun j hj => ?_⟩
  · change withPrimes (base ++ ['\'']) k ∉ taken
    rw [withPrimes_concat]
    exact h.notMem
  · change withPrimes (base ++ ['\'']) j ∉ taken at hj
    rw [withPrimes_concat] at hj
    exact Nat.le_of_succ_le_succ (h.2 hj)

theorem exists_withPrimes_notMem (taken : List Text) (base : Text) :
    ∃ k ≤ taken.length, withPrimes base k ∉ taken := by
  -- Otherwise these names, one more than there are taken ones, would all be taken.
  by_contra! h
  have hnodup : ((List.range (taken.length + 1)).map (withPrimes base)).Nodup :=
    List.nodup_range.map (withPrimes_injective base)
  have hsubset : (List.range (taken.length + 1)).map (withPrimes base) ⊆ taken := by
    intro name hname
    obtain ⟨k, hk, rfl⟩ := List.mem_map.1 hname
    exact h k (Nat.le_of_lt_succ (List.mem_range.1 hk))
  have hlength := (hnodup.subperm hsubset).length_le
  rw [List.length_map, List.length_range] at hlength
  omega

/-- **Some name is free**, within as many primes as there are taken names. -/
theorem exists_firstFree (taken : List Text) (base : Text) :
    ∃ k ≤ taken.length, FirstFree taken base k := by
  obtain ⟨k, hk, hfree⟩ := exists_withPrimes_notMem taken base
  have hex : ∃ k, withPrimes base k ∉ taken := ⟨k, hfree⟩
  exact ⟨Nat.find hex, (Nat.find_min' hex hfree).trans hk, Nat.find_spec hex,
    fun j hj => Nat.find_min' hex hj⟩

/-! ## The search -/

/-- The search without a bound: a free name is found, and a taken one gets one more prime. -/
inductive Freshens (taken : List Text) : Text → Text → Prop where
  | free {name : Text} (h : name ∉ taken) : Freshens taken name name
  | next {name found : Text} (h : name ∈ taken) (rest : Freshens taken (name ++ ['\'']) found) :
    Freshens taken name found

/-- **The search comes to its end** at the first free name, and nowhere else. -/
theorem FirstFree.freshens_iff (h : FirstFree taken base k) :
    Freshens taken base name ↔ name = withPrimes base k := by
  induction k generalizing base with
  | zero =>
    have hfree := h.notMem
    rw [withPrimes_zero] at hfree ⊢
    constructor
    · rintro (_ | ⟨htaken, -⟩)
      · rfl
      · exact absurd htaken hfree
    · rintro rfl
      exact .free hfree
  | succ k ih =>
    rw [← withPrimes_concat, ← ih h.concat]
    constructor
    · rintro (hfree | ⟨-, hrest⟩)
      · exact absurd h.mem hfree
      · exact hrest
    · exact .next h.mem

theorem FirstFree.freshNameWithin_eq (h : FirstFree taken base k) {fuel : ℕ} (hk : k ≤ fuel) :
    freshNameWithin taken fuel base = withPrimes base k := by
  induction k generalizing base fuel with
  | zero =>
    have hfree := h.notMem
    rw [withPrimes_zero] at hfree ⊢
    cases fuel with
    | zero => rfl
    | succ fuel => exact if_neg hfree
  | succ k ih =>
    obtain ⟨fuel, rfl⟩ := Nat.exists_eq_succ_of_ne_zero (Nat.ne_zero_of_lt hk)
    rw [Nat.succ_eq_add_one, freshNameWithin, if_pos h.mem, ih h.concat (Nat.le_of_succ_le_succ hk),
      withPrimes_concat]

theorem FirstFree.freshName_eq (h : FirstFree taken base k) :
    freshName taken base = withPrimes base k := by
  obtain ⟨j, hj, hfree⟩ := exists_firstFree taken base
  obtain rfl := h.unique hfree
  exact h.freshNameWithin_eq hj

theorem freshens_freshName_iff (taken : List Text) (base : Text) :
    Freshens taken base name ↔ name = freshName taken base := by
  obtain ⟨k, -, hk⟩ := exists_firstFree taken base
  rw [hk.freshName_eq]
  exact hk.freshens_iff

/-! ## The names of a numbered grammar -/

namespace Grammar

variable {g : Grammar} {n : NumberedGrammar}

/-- **Fresh names** of a grammar. The search for one comes to its end, and what it finds is the name
with as many primes as are needed to make it the name of no symbol. For the augmented start only the
nonterminals are taken when the search is made; it finds the start symbol with one prime, and no
other symbol gets this name later. -/
theorem freshName_exact (hn : g.number? = some n) :
    (∀ base, ∃ k, freshName n.names base = withPrimes base k ∧ FirstFree n.names base k ∧
      ∀ name, Freshens n.names base name ↔ name = freshName n.names base) ∧
    ∃ s, g.start? = some s ∧ n.nonterminals =
        g.nonterminals.map (fun A => [A]) ++ [freshName (g.nonterminals.map fun A => [A]) [s]] ∧
      (∀ name, Freshens (g.nonterminals.map fun A => [A]) [s] name ↔ name = [s, '\'']) ∧
      freshName (g.nonterminals.map fun A => [A]) [s] = [s, '\''] ∧
      ∀ i, n.names[i]? = some [s, '\''] ↔ i = n.augmentedStart := by
  obtain ⟨s, hs, rfl⟩ := Option.map_eq_some_iff.1 hn
  have hmem := start_mem_nonterminals hs
  have hstart := freshName_start hmem
  refine ⟨fun base => ?_, s, hs, rfl, fun name => ?_, hstart, fun i => ?_⟩
  · obtain ⟨k, -, hk⟩ := exists_firstFree (g.number s).names base
    exact ⟨k, hk.freshName_eq, hk, fun name => freshens_freshName_iff _ _⟩
  · rw [freshens_freshName_iff, hstart]
  · have haugmented := getElem?_names_augmentedStart hmem
    constructor
    · intro hi
      obtain ⟨hlt, hname⟩ := List.getElem?_eq_some_iff.1 hi
      obtain ⟨hlt', hname'⟩ := List.getElem?_eq_some_iff.1 haugmented
      exact (names_nodup hmem).getElem_inj_iff.1 (hname.trans hname'.symm)
    · rintro rfl
      exact haugmented

/-- Where the prime is the start symbol, two primes name the augmented start, and three are free. -/
theorem freshName_exact_primed : ∃ n, primed.number? = some n ∧
    freshName n.names ['\''] = ['\'', '\'', '\''] ∧ FirstFree n.names ['\''] 2 ∧
    (∀ name, Freshens n.names ['\''] name ↔ name = ['\'', '\'', '\'']) ∧
    ∀ i, n.names[i]? = some ['\'', '\''] ↔ i = n.augmentedStart := by
  have hn : primed.number? = some (primed.number '\'') := rfl
  obtain ⟨hnames, s, hs, -, -, -, hstart⟩ := freshName_exact hn
  obtain rfl : '\'' = s := Option.some.inj hs
  obtain ⟨k, hk, hfirst, hfreshens⟩ := hnames ['\'']
  have hname : freshName (primed.number '\'').names ['\''] = ['\'', '\'', '\''] := by decide
  rw [hname] at hk hfreshens
  obtain rfl : 2 = k := withPrimes_injective ['\''] hk
  exact ⟨_, hn, hname, hfirst, hfreshens, hstart⟩

end Grammar

end PredictiveParsing
