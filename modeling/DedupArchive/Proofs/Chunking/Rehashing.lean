/-
  DedupArchive/Proofs/Chunking/Rehashing.lean
  ===========================================
  **The fingerprints of all windows of a byte string.**

  A fingerprint is computed on 32-bit words and means a sum of natural numbers
  modulo 2^32, each byte with its power of the multiplier.  Rolling along a byte
  string takes the fingerprint of the first window and moves it one byte at a
  time; by the step (`Roller.advance_fingerprint`) each value noted on the way is
  the fingerprint of its window, taken afresh.  No multiplier is an exception,
  even ones and zero included, since nothing is ever divided.
-/
import DedupArchive.Proofs.Chunking.Rolling
import Mathlib.Algebra.BigOperators.Fin

namespace DedupArchive

/-! ### Words as numbers -/

theorem toNat_pow (a : UInt32) (n : Nat) : (a ^ n).toNat = a.toNat ^ n % 2 ^ 32 := by
  induction n with
  | zero => rfl
  | succ n ih => rw [UInt32.pow_succ, UInt32.toNat_mul, ih, Nat.mod_mul_mod, pow_succ a.toNat n]

theorem toNat_weightedSum (a : UInt32) {k : Nat} {window : Bytes} (hlength : window.length = k) :
    (weightedSum a window).toNat =
      (∑ i : Fin k, a.toNat ^ (k - 1 - i) * window[i].toNat) % 2 ^ 32 := by
  induction window generalizing k with
  | nil =>
    subst hlength
    rfl
  | cons b rest ih =>
    subst hlength
    have hpower (i : Fin rest.length) :
        rest.length + 1 - 1 - (i.succ : Nat) = rest.length - 1 - i := by
      rw [Fin.val_succ]
      omega
    simp only [weightedSum, List.length_cons, Fin.sum_univ_succ, hpower, UInt32.toNat_add,
      UInt32.toNat_mul, toNat_pow, ih rfl, UInt8.toNat_toUInt32]
    simp [Nat.add_mod, Nat.mul_mod]

namespace Roller

variable (r : Roller) {data : Bytes}

/-! ### One window -/

def windowAt (data : Bytes) (i : Nat) : UInt32 := fingerprint r.multiplier ((data.drop i).take r.width)

theorem hash_drop {i : Nat} (h : i + r.width ≤ data.length) :
    r.hash (data.drop i) = .ok (r.windowAt data i) := by
  have hlong : ¬ (data.drop i).length < r.width := by
    rw [List.length_drop]
    omega
  rw [hash, if_neg hlong, windowAt]

/-- **One step.**  The byte that leaves is the first of the window, and the byte that
    enters is the one behind it. -/
theorem windowAt_succ {i : Nat} (h : i + r.width < data.length) :
    r.windowAt data (i + 1) = r.advance (r.windowAt data i) data[i] data[i + r.width] := by
  obtain ⟨k, hk⟩ : ∃ k, r.width = k + 1 := Nat.exists_eq_succ_of_ne_zero (Nat.ne_of_gt r.width_pos)
  have hwindow (j : Nat) : r.windowAt data j = fingerprint r.multiplier ((data.drop j).take (k + 1)) := by
    rw [windowAt, hk]
  have hlast : (data.drop (i + 1))[k]? = some data[i + r.width] := by
    rw [List.getElem?_drop, List.getElem?_eq_some_iff]
    refine ⟨by omega, ?_⟩
    congr 1
    omega
  have hfront : (data.drop i).take (k + 1) = data[i] :: (data.drop (i + 1)).take k := by
    rw [List.drop_eq_getElem_cons (by omega), List.take_succ_cons]
  have hback : (data.drop (i + 1)).take (k + 1) = (data.drop (i + 1)).take k ++ [data[i + r.width]] := by
    rw [List.take_add_one, hlast]
    rfl
  rw [hwindow, hwindow, hfront, hback]
  symm
  apply r.advance_fingerprint
  rw [List.length_take, List.length_drop]
  omega

/-! ### All windows -/

/-- Along the bytes that follow the first window, each value noted is that of its
    window; the latest comes first. -/
theorem foldl_note (h : r.width ≤ data.length) (noted : List UInt32) :
    ((data.zip (data.drop r.width)).foldl r.note (r.windowAt data 0, noted)).2 =
      ((List.range (data.length - r.width)).map fun i => r.windowAt data (i + 1)).reverse ++ noted := by
  -- the induction is on the bytes: the front one leaves, and the rest is rolled along in turn
  induction data generalizing noted with
  | nil => simp
  | cons b rest ih =>
    rcases Nat.lt_or_eq_of_le h with hmore | hend
    · have hrest : r.width ≤ rest.length := Nat.le_of_lt_succ hmore
      have hcount : (b :: rest).length - r.width = rest.length - r.width + 1 := Nat.succ_sub hrest
      have hstep := r.windowAt_succ (i := 0) (by rwa [Nat.zero_add])
      simp only [Nat.zero_add, List.getElem_cons_zero] at hstep
      have hnote : r.note (r.windowAt (b :: rest) 0, noted) (b, (b :: rest)[r.width]) =
          (r.windowAt rest 0, r.windowAt (b :: rest) 1 :: noted) := by
        simp only [note, ← hstep]
        rfl
      rw [List.drop_eq_getElem_cons hmore, List.drop_succ_cons, List.zip_cons_cons, List.foldl_cons,
        hnote, ih hrest, hcount, List.range_succ_eq_map, List.map_cons, List.map_map,
        List.reverse_cons, List.append_assoc]
      rfl
    · simp [hend]

theorem hashes_eq (h : r.width ≤ data.length) :
    r.hashes data = .ok ((List.range (data.length - r.width + 1)).map (r.windowAt data)) := by
  have hfirst : r.hash data = .ok (r.windowAt data 0) := r.hash_drop (i := 0) (by omega)
  rw [hashes, hfirst]
  show Except.ok _ = Except.ok _
  rw [foldl_note r h, List.reverse_append, List.reverse_reverse, List.range_succ_eq_map, List.map_cons,
    List.map_map]
  rfl

end Roller

/-- **Rolling is rehashing.**  For every width but zero and every multiplier, the
    fingerprint of a byte string is the sum over its first `k` bytes, each times its
    power of the multiplier, modulo 2^32, and so it is with powers from the table.
    Rolling along the byte string starts from
    it, takes one step for each byte that follows, and has at every position the
    fingerprint that is computed there afresh. -/
theorem Roller.rolling_eq_rehashing {k : Nat} (hk : 0 < k) (a : UInt32) {data : Bytes}
    (hdata : k ≤ data.length) :
    ∃ r, Roller.new k a = .ok r ∧
      (∃ first, r.hash data = .ok first ∧ r.hashByTable data = .ok first ∧
        first.toNat = (∑ i : Fin k, a.toNat ^ (k - 1 - i) * data[i].toNat) % 2 ^ 32) ∧
      ∃ values, r.hashes data = .ok values ∧ values.length = data.length - k + 1 ∧
        (∀ i, (hi : i < values.length) → r.hash (data.drop i) = .ok values[i]) ∧
        ∀ i, (hi : i + k < data.length) → ∃ value, values[i]? = some value ∧
          values[i + 1]? = some (r.advance value data[i] data[i + k]) := by
  refine ⟨.ofWidth k a hk, dif_pos hk, ?_, ?_⟩
  · have hfirst := (ofWidth k a hk).hash_drop (i := 0) (by simpa [ofWidth] using hdata)
    refine ⟨_, hfirst, ((ofWidth k a hk).hashByTable_eq data).trans hfirst, ?_⟩
    show (fingerprint a (data.take k)).toNat = _
    rw [fingerprint_eq_weightedSum, toNat_weightedSum a (List.length_take_of_le hdata)]
    simp
  · have hwidth : (ofWidth k a hk).width = k := rfl
    refine ⟨_, (ofWidth k a hk).hashes_eq hdata, ?_, ?_, ?_⟩
    · simp [hwidth]
    · intro i hi
      rw [List.length_map, List.length_range, hwidth] at hi
      rw [hash_drop _ (by omega), List.getElem_map, List.getElem_range]
    · intro i hi
      refine ⟨(ofWidth k a hk).windowAt data i, ?_, ?_⟩
      · rw [List.getElem?_map, List.getElem?_range (by omega)]
        rfl
      · rw [List.getElem?_map, List.getElem?_range (by omega)]
        exact congrArg some (windowAt_succ _ hi)

/-- An even multiplier, whose powers soon vanish modulo 2^32. -/
theorem Roller.rolling_eq_rehashing_evenMultiplier : 0 < 2 ∧ 2 ≤ ([255, 8, 9] : Bytes).length ∧
    ∃ r, Roller.new 2 65536 = .ok r ∧
      (∃ first, r.hash [255, 8, 9] = .ok first ∧ r.hashByTable [255, 8, 9] = .ok first ∧
        first.toNat = 65536 * 255 + 8) ∧
      ∃ values, r.hashes [255, 8, 9] = .ok values ∧ values.length = 2 ∧
        ∀ i, (hi : i < values.length) → r.hash (([255, 8, 9] : Bytes).drop i) = .ok values[i] := by
  have hk : 0 < 2 := by decide
  have hdata : 2 ≤ ([255, 8, 9] : Bytes).length := by decide
  obtain ⟨r, hnew, ⟨first, hfirst, htable, hsum⟩, values, hvalues, hlength, hall, -⟩ :=
    rolling_eq_rehashing hk 65536 hdata
  exact ⟨hk, hdata, r, hnew, ⟨first, hfirst, htable, hsum⟩, values, hvalues, hlength, hall⟩

end DedupArchive
