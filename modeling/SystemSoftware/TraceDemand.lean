import SystemSoftware.TracePayloads
import Mathlib.Data.Finset.Lattice.Fold
import Mathlib.Order.Lattice.Nat

/-!
The numerator of the utilization. What a trace asks for is a matter of the trace alone:
the ids in use with the sizes last asked for. On a trace of a program eval_mm_util
computes the high-water mark of their sum, whatever the package does, if an int holds it.
-/
namespace SystemSoftware.TraceDemand

open EarlyExit TraceDriver TracePayloads

def heldNext (held : List (ℕ × ℕ)) : TraceOp → List (ℕ × ℕ)
  | .alloc index size => (index, size) :: held
  | .realloc index size => (index, size) :: held.filter (·.1 ≠ index)
  | .free index => held.filter (·.1 ≠ index)

def heldAfter (ops : List TraceOp) : List (ℕ × ℕ) := ops.foldl heldNext []

def bytes (held : List (ℕ × ℕ)) : ℕ := (held.map Prod.snd).sum

def highWater (ops : List TraceOp) : ℕ :=
  (Finset.range (ops.length + 1)).sup fun k => bytes (heldAfter (ops.take k))

section Held

variable {held : List (ℕ × ℕ)} {ops pre : List TraceOp} {op : TraceOp} {numIds index n : ℕ}

theorem heldAfter_append (ops : List TraceOp) (op : TraceOp) :
    heldAfter (ops ++ [op]) = heldNext (heldAfter ops) op := by
  rw [heldAfter, List.foldl_append]
  rfl

theorem liveIds_append (ops : List TraceOp) (op : TraceOp) :
    liveIds (ops ++ [op]) = liveNext (liveIds ops) op := by
  rw [liveIds, List.foldl_append]
  rfl

theorem map_filter_fst (hnodup : (held.map Prod.fst).Nodup) (index : ℕ) :
    (held.filter (·.1 ≠ index)).map Prod.fst = (held.map Prod.fst).erase index := by
  rw [hnodup.erase_eq_filter, List.filter_map]
  congr 1
  refine List.filter_congr fun x _ => ?_
  by_cases hx : x.1 = index <;> simp [hx]

/-- The ids of what is held are the ids in use. -/
theorem heldNext_fst (hnodup : (held.map Prod.fst).Nodup)
    (hop : proper numIds (held.map Prod.fst) op) :
    (heldNext held op).map Prod.fst = liveNext (held.map Prod.fst) op ∧
      ((heldNext held op).map Prod.fst).Nodup := by
  cases op with
  | alloc index size => exact ⟨rfl, List.nodup_cons.mpr ⟨hop.2.1, hnodup⟩⟩
  | realloc index size =>
    simp only [heldNext, liveNext, List.map_cons, map_filter_fst hnodup, List.nodup_cons,
      true_and]
    exact ⟨hnodup.not_mem_erase, hnodup.erase index⟩
  | free index =>
    simp only [heldNext, liveNext, map_filter_fst hnodup, true_and]
    exact hnodup.erase index

theorem heldAfter_fst (hops : Proper numIds ops) :
    (heldAfter ops).map Prod.fst = liveIds ops ∧ ((heldAfter ops).map Prod.fst).Nodup := by
  induction ops using List.reverseRecOn with
  | nil => exact ⟨rfl, List.nodup_nil⟩
  | append_singleton ops op ih =>
    obtain ⟨hall, hop, -⟩ := allowed_append.mp hops
    obtain ⟨hfst, hnodup⟩ := ih hall
    rw [heldAfter_append, liveIds_append, ← hfst]
    exact heldNext_fst hnodup (by rw [hfst]; exact hop)

/-- An id that is in use counts once. -/
theorem bytes_filter (hnodup : (held.map Prod.fst).Nodup) (hin : (index, n) ∈ held) :
    bytes held = n + bytes (held.filter (·.1 ≠ index)) := by
  induction held with
  | nil => cases hin
  | cons x held ih =>
    rw [List.map_cons, List.nodup_cons] at hnodup
    have hcons : ∀ l : List (ℕ × ℕ), bytes (x :: l) = x.2 + bytes l := fun l => by
      rw [bytes, List.map_cons, List.sum_cons, bytes]
    rcases List.mem_cons.mp hin with rfl | hin
    · have hrest : held.filter (·.1 ≠ index) = held := by
        refine List.filter_eq_self.mpr fun y hy => ?_
        have hne : y.1 ≠ index := fun h => hnodup.1 (List.mem_map.mpr ⟨y, hy, h⟩)
        simpa using hne
      rw [hcons, List.filter_cons_of_neg (by simp), hrest]
    · have hne : x.1 ≠ index := fun h => hnodup.1 (List.mem_map.mpr ⟨_, hin, h.symm⟩)
      rw [hcons, ih hnodup.2 hin, List.filter_cons_of_pos (by simpa using hne), hcons]
      omega

theorem bytes_le_highWater (ops : List TraceOp) : bytes (heldAfter ops) ≤ highWater ops := by
  have hmem : ops.length ∈ Finset.range (ops.length + 1) := by simp
  have hle := Finset.le_sup (f := fun k => bytes (heldAfter (ops.take k))) hmem
  rwa [List.take_length] at hle

theorem highWater_append (ops : List TraceOp) (op : TraceOp) :
    highWater (ops ++ [op]) = max (highWater ops) (bytes (heldAfter (ops ++ [op]))) := by
  have hlen : (ops ++ [op]).length = ops.length + 1 := List.length_append
  rw [highWater, hlen, Finset.range_add_one, Finset.sup_insert, highWater, ← hlen,
    List.take_length, hlen, sup_comm]
  congr 1
  refine Finset.sup_congr rfl fun k hk => ?_
  rw [List.take_append_of_le_length (Nat.lt_succ_iff.mp (Finset.mem_range.mp hk))]

end Held

section Util

variable {σ : Type*} {P : Package σ} {numIds opnum : ℕ} {ops : List TraceOp} {op : TraceOp}
  {u u' t : Util σ} {s : Eval σ}

/-- The variables of eval_mm_util after the requests that have been met. The sums are right
as long as an int has held them all. -/
structure Counts (ops : List TraceOp) (u : Util σ) : Prop where
  sizes : ∀ x ∈ heldAfter ops, u.blockSizes x.1 = x.2 ∧ x.2 < 2 ^ 31
  total : highWater ops < 2 ^ 31 → u.totalSize = bytes (heldAfter ops)
  high : highWater ops < 2 ^ 31 → u.maxTotalSize = highWater ops
  range : u.maxTotalSize < 2 ^ 31

theorem toInt_of_lt {n : ℕ} (hn : n < 2 ^ 31) : toInt n = n := if_pos hn

theorem wrapInt_lt (x : Int) : wrapInt x < 2 ^ 31 := by
  rw [wrapInt]
  omega

theorem wrapInt_of_lt {x : Int} (hlo : -2 ^ 31 ≤ x) (hhi : x < 2 ^ 31) : wrapInt x = x := by
  rw [wrapInt]
  omega

theorem counts_nil (mm : σ) : Counts [] { s with mm := mm, totalSize := 0, maxTotalSize := 0 } where
  sizes := by simp [heldAfter]
  total := fun _ => rfl
  high := fun _ => rfl
  range := by norm_num

/-- The statistics after a block of a new size: the rest of what is held is `rest`. -/
theorem counts_of_placed {rest : List (ℕ × ℕ)} {index size : ℕ} {mm : σ} {p : ℕ}
    (hheld : heldAfter (ops ++ [op]) = (index, size) :: rest)
    (hrest : ∀ x ∈ rest, x.1 ≠ index ∧ x ∈ heldAfter ops) (hsize : size < 2 ^ 31)
    (hc : Counts ops u) {total : Int} (hlt : total < 2 ^ 31)
    (htotal : highWater (ops ++ [op]) < 2 ^ 31 → total = (bytes rest : Int) + size) :
    Counts (ops ++ [op]) { u with
      mm := mm
      blocks := Function.update u.blocks index p
      blockSizes := Function.update u.blockSizes index size
      totalSize := total
      maxTotalSize := if u.maxTotalSize < total then total else u.maxTotalSize } := by
  have hbytes : bytes (heldAfter (ops ++ [op])) = size + bytes rest := by
    rw [hheld, bytes, List.map_cons, List.sum_cons, bytes]
  refine ⟨?_, fun hfits => ?_, fun hfits => ?_, ?_⟩
  · intro x hx
    rw [hheld] at hx
    rcases List.mem_cons.mp hx with rfl | hx
    · exact ⟨Function.update_self .., hsize⟩
    · obtain ⟨hne, hold⟩ := hrest x hx
      simpa only [Function.update_of_ne hne] using hc.sizes x hold
  · rw [htotal hfits, hbytes]
    push_cast
    omega
  · have hsum := htotal hfits
    have hhigh := hc.high ((le_max_left _ _).trans_lt (highWater_append ops op ▸ hfits))
    rw [highWater_append, hbytes, hsum, hhigh]
    push_cast
    omega
  · have hold := hc.range
    simp only
    split <;> omega

/-- The sums are those of a trace whose high-water mark an int holds, before a request. -/
theorem Counts.before (hc : Counts ops u) (hfits : highWater (ops ++ [op]) < 2 ^ 31) :
    u.totalSize = bytes (heldAfter ops) ∧ bytes (heldAfter ops) < 2 ^ 31 ∧
      bytes (heldAfter (ops ++ [op])) < 2 ^ 31 := by
  have hlast := (bytes_le_highWater (ops ++ [op])).trans_lt hfits
  rw [highWater_append] at hfits
  have hold : highWater ops < 2 ^ 31 := (le_max_left _ _).trans_lt hfits
  exact ⟨hc.total hold, (bytes_le_highWater ops).trans_lt hold, hlast⟩

theorem utilOp_counts (hc : Counts ops u) (hops : Proper numIds ops)
    (hop : proper numIds (liveIds ops) op)
    (hstep : utilOp P numIds opnum op u = some (.ok u')) : Counts (ops ++ [op]) u' := by
  obtain ⟨hfst, hnodup⟩ := heldAfter_fst hops
  cases op with
  | alloc index size =>
    obtain ⟨hid, hnew, -, hsize⟩ := hop
    simp only [utilOp, Option.bind_eq_bind, Option.bind_eq_some_iff] at hstep
    obtain ⟨⟨mm, p⟩, -, hstep⟩ := hstep
    split at hstep
    · cases hstep
    · rw [if_neg (by omega)] at hstep
      obtain rfl := Except.ok.inj (Option.some.inj hstep)
      have hheld := heldAfter_append ops (.alloc index size)
      refine counts_of_placed hheld (fun x hx => ⟨?_, hx⟩) hsize hc (wrapInt_lt _) fun hfits => ?_
      · rintro rfl
        rw [← hfst] at hnew
        exact hnew (List.mem_map_of_mem hx)
      · obtain ⟨hsum, -, hlast⟩ := hc.before hfits
        rw [hheld, heldNext, bytes, List.map_cons, List.sum_cons, ← bytes] at hlast
        rw [toInt_of_lt hsize, hsum, wrapInt_of_lt (by omega) (by push_cast at hlast ⊢; omega)]
  | realloc index size =>
    obtain ⟨hid, hin, -, hsize⟩ := hop
    rw [← hfst, List.mem_map] at hin
    obtain ⟨⟨i, n⟩, hin, rfl⟩ := hin
    obtain ⟨hold, hn⟩ := hc.sizes _ hin
    simp only [utilOp, if_neg (show ¬ numIds ≤ i by simp only at hid; omega),
      Option.bind_eq_bind, Option.bind_eq_some_iff] at hstep
    obtain ⟨⟨mm, p⟩, -, hstep⟩ := hstep
    split at hstep
    · cases hstep
    · obtain rfl := Except.ok.inj (Option.some.inj hstep)
      have hheld := heldAfter_append ops (.realloc i size)
      refine counts_of_placed hheld (fun x hx => ?_) hsize hc (wrapInt_lt _) fun hfits => ?_
      · obtain ⟨hx, hne⟩ := List.mem_filter.mp hx
        exact ⟨by simpa using hne, hx⟩
      · obtain ⟨hsum, hbefore, hlast⟩ := hc.before hfits
        rw [hheld, heldNext, bytes, List.map_cons, List.sum_cons, ← bytes] at hlast
        rw [bytes_filter hnodup hin] at hsum hbefore
        have hdiff : wrapInt ((size : Int) - n) = size - n := wrapInt_of_lt (by omega) (by omega)
        rw [toInt_of_lt hsize, hold, toInt_of_lt hn, hsum, hdiff,
          wrapInt_of_lt (by push_cast; omega) (by push_cast; omega)]
        push_cast
        omega
  | free index =>
    obtain ⟨hid, hin⟩ := hop
    rw [← hfst, List.mem_map] at hin
    obtain ⟨⟨i, n⟩, hin, rfl⟩ := hin
    obtain ⟨hold, hn⟩ := hc.sizes _ hin
    simp only [utilOp, if_neg (show ¬ numIds ≤ i by simp only at hid; omega),
      Option.bind_eq_bind, Option.bind_eq_some_iff] at hstep
    obtain ⟨mm, -, hstep⟩ := hstep
    obtain rfl := Except.ok.inj (Option.some.inj hstep)
    have hbytes := bytes_filter hnodup hin
    have hheld : heldAfter (ops ++ [.free i]) = (heldAfter ops).filter (·.1 ≠ i) :=
      heldAfter_append ops _
    refine ⟨?_, fun hfits => ?_, fun hfits => ?_, hc.range⟩
    · intro x hx
      rw [hheld] at hx
      exact hc.sizes x (List.mem_of_mem_filter hx)
    · obtain ⟨hsum, hbefore, -⟩ := hc.before hfits
      simp only [hold, toInt_of_lt hn, hsum, hheld]
      rw [wrapInt_of_lt (by omega) (by omega)]
      omega
    · have hle := bytes_le_highWater ops
      have hhigh := hc.high ((le_max_left _ _).trans_lt (highWater_append ops _ ▸ hfits))
      simp only [highWater_append, hheld, hhigh]
      omega

/-- When eval_mm_util reaches its end, `max_total_size` is the high-water mark of the trace
exactly if that fits in an int, and then `total_size` is what is in use at the end. -/
theorem util_counts (hops : Proper numIds ops)
    (hrun : evalMmUtil P numIds ops s = some (.ok t)) :
    (t.maxTotalSize = highWater ops ↔ highWater ops < 2 ^ 31) ∧
      (highWater ops < 2 ^ 31 → t.totalSize = bytes (heldAfter ops)) := by
  simp only [evalMmUtil, Option.bind_eq_bind, Option.bind_eq_some_iff] at hrun
  obtain ⟨⟨mm, r⟩, -, hrun⟩ := hrun
  split at hrun
  · cases hrun
  · have hkeep : ∀ (pre : List TraceOp) i op (u u' : Util σ),
        (Proper numIds pre ∧ Counts pre u) → proper numIds (pre.foldl liveNext []) op →
        utilOp P numIds i op u = some (.ok u') →
        Proper numIds (pre ++ [op]) ∧ Counts (pre ++ [op]) u' :=
      fun pre i op u u' hI hop hstep =>
        ⟨allowed_append.mpr ⟨hI.1, hop, trivial⟩, utilOp_counts hI.2 hI.1 hop hstep⟩
    have hcounts := runFrom_prefix_invariant hkeep ops [] hops ⟨trivial, counts_nil mm⟩ hrun
    rw [List.nil_append] at hcounts
    refine ⟨⟨fun hmax => ?_, hcounts.2.high⟩, hcounts.2.total⟩
    have hrange := hcounts.2.range
    omega

end Util

end SystemSoftware.TraceDemand
