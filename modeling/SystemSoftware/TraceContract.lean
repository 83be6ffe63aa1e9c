import SystemSoftware.TraceDemand

/-!
Packages that keep the contract of malloc and free, checked by the driver. What a package
is asked to keep is an invariant of its heap and of the payloads in use. On a trace of a
program without reallocations, eval_mm_valid finds nothing wrong with such a package but
that its memory is used up, and the utilization that eval_mm_util computes is at most 1.
-/
namespace SystemSoftware.TraceContract

open ByteMemory EarlyExit Intervals TraceDriver TracePayloads TraceDemand

variable {σ : Type*}

/-- The contract: where `mm_init` returns on a heap that is `Start`, it succeeds or refuses,
and from then on `I` holds of the heap and the payloads in use, each with its length. -/
structure Contract (P : Package σ) (Start : σ → Prop) (I : σ → List (ℕ × ℕ) → Prop) : Prop where
  init : ∀ {m m' r}, Start m → P.mmInit (P.memResetBrk m) = some (m', r) → r < 0 ∨ I m' []
  malloc : ∀ {m used n m' p}, I m used → 0 < n → n < 2 ^ 31 → P.mmMalloc m n = some (m', p) →
    Grown P m m' ∧ ((p = null ∧ I m' used) ∨ (p ≠ null ∧ I m' ((p, n) :: used)))
  free : ∀ {m used p n}, I m used → (p, n) ∈ used → ∃ m', P.mmFree m p = some m' ∧
    Grown P m m' ∧ I m' (used.filter (·.1 ≠ p))
  store : ∀ {m used p n x}, I m used → (p, n) ∈ used → p ≤ x → x < p + n → ∀ v,
    I (P.store m x v) used ∧ Grown P m (P.store m x v)
  apart : ∀ {m used}, I m used → used.Pairwise Apart
  inside : ∀ {m used}, I m used → ∀ x ∈ used, 8 ∣ x.1 ∧
    Within (P.memHeapLo m) (P.memHeapHi m + 1) x
  span : ∀ {m used}, I m used → P.memHeapHi m < 2 ^ 32 ∧ P.memHeapHi m < P.memHeapLo m + 2 ^ 31
  heapsize : ∀ {m used}, I m used → P.memHeapsize m = P.memHeapHi m + 1 - P.memHeapLo m
  start : ∀ {m used}, I m used → Start m

/-- The calls return: `mm_init`, and `mm_malloc` for the sizes that are `Fits`. -/
structure Answers (P : Package σ) (Start : σ → Prop) (I : σ → List (ℕ × ℕ) → Prop)
    (Fits : ℕ → Prop) : Prop where
  init : ∀ {m}, Start m → (P.mmInit (P.memResetBrk m)).isSome
  malloc : ∀ {m used n}, I m used → 0 < n → n < 2 ^ 31 → Fits n → (P.mmMalloc m n).isSome

def Asks (Fits : ℕ → Prop) : TraceOp → Prop
  | .alloc _ size => Fits size
  | _ => True

def plain (numIds : ℕ) (live : List ℕ) : TraceOp → Prop
  | .realloc _ _ => False
  | op => proper numIds live op

instance (numIds : ℕ) (live : List ℕ) : ∀ op, Decidable (plain numIds live op)
  | .alloc index size => inferInstanceAs (Decidable (proper numIds live (.alloc index size)))
  | .realloc _ _ => inferInstanceAs (Decidable False)
  | .free index => inferInstanceAs (Decidable (proper numIds live (.free index)))

abbrev Plain (numIds : ℕ) (ops : List TraceOp) : Prop := Allowed (plain numIds) liveNext [] ops

theorem proper_of_plain {numIds : ℕ} {live : List ℕ} {op : TraceOp}
    (h : plain numIds live op) : proper numIds live op := by
  cases op with
  | alloc index size => exact h
  | realloc index size => exact h.elim
  | free index => exact h

theorem Plain.proper {numIds : ℕ} : ∀ {ops : List TraceOp} {live : List ℕ},
    Allowed (plain numIds) liveNext live ops → Allowed (proper numIds) liveNext live ops
  | [], _, _ => trivial
  | _ :: _, _, h => ⟨proper_of_plain h.1, Plain.proper h.2⟩

/-- The package keeps the payloads of the ids in use. -/
structure Kept (P : Package σ) (I : σ → List (ℕ × ℕ) → Prop) (live : List ℕ) (s : Eval σ) :
    Prop where
  nodup : live.Nodup
  held : I s.mm (live.map (payload s))
  sized : ∀ i ∈ live, 0 < s.blockSizes i

section Steps

variable {P : Package σ} {Start : σ → Prop} {I : σ → List (ℕ × ℕ) → Prop} {Fits : ℕ → Prop}
  {live : List ℕ} {s : Eval σ} {numIds opnum i n p : ℕ} {mm : σ}

theorem Kept.starts (hC : Contract P Start I) (hk : Kept P I live s) (hi : i ∈ live) :
    ∀ j ∈ live, s.blocks j = s.blocks i → j = i := fun j hj =>
  starts_of_placed hk.sized ((List.pairwise_map.mp (hC.apart hk.held)).imp Or.inl) j hj i hi

/-- What is left of the payloads when one block is freed. -/
theorem filter_payload (hstart : ∀ j ∈ live, s.blocks j = s.blocks i → j = i)
    (hnodup : live.Nodup) :
    (live.map (payload s)).filter (·.1 ≠ s.blocks i) = (live.erase i).map (payload s) := by
  rw [hnodup.erase_eq_filter, List.filter_map]
  congr 1
  refine List.filter_congr fun j hj => ?_
  by_cases hji : j = i
  · simp [hji, payload]
  · have hne : s.blocks j ≠ s.blocks i := fun h => hji (hstart j hj h)
    simp [payload, hne, hji]

theorem Kept.place {I' : σ → List (ℕ × ℕ) → Prop} (hk : Kept P I' live s) (hnew : i ∉ live)
    (hpos : 0 < n) (hI : I mm ((p, n) :: live.map (payload s))) (ranges : List Range) :
    Kept P I (i :: live) ⟨mm, ranges, Function.update s.blocks i p,
      Function.update s.blockSizes i n⟩ where
  nodup := List.nodup_cons.mpr ⟨hnew, hk.nodup⟩
  held := by
    have hold : live.map (payload ⟨mm, ranges, Function.update s.blocks i p,
        Function.update s.blockSizes i n⟩) = live.map (payload s) := by
      refine List.map_congr_left fun j hj => ?_
      have hne : j ≠ i := fun h => hnew (h ▸ hj)
      simp only [payload, Function.update_of_ne hne]
    rw [List.map_cons, hold]
    simpa only [payload, Function.update_self] using hI
  sized := by
    rintro j (_ | ⟨_, hj⟩)
    · simpa using hpos
    · have hne : j ≠ i := fun h => hnew (h ▸ hj)
      simpa only [Function.update_of_ne hne] using hk.sized j hj

theorem memset_kept (hC : Contract P Start I) {used : List (ℕ × ℕ)} (hI : I mm used)
    (hp : (p, n) ∈ used) (v : UInt8) :
    ∀ k ≤ n, I (memset P mm p v k) used ∧ Grown P mm (memset P mm p v k) := by
  intro k
  induction k with
  | zero => exact fun _ => ⟨hI, Grown.refl mm⟩
  | succ k ih =>
    intro hk
    obtain ⟨hI', hgrown⟩ := ih (by omega)
    obtain ⟨hI'', hgrown'⟩ := hC.store hI' hp (show p ≤ p + k by omega) (by omega) v
    exact ⟨hI'', hgrown.trans hgrown'⟩

/-- After a block has been freed. -/
theorem Kept.remove {I' : σ → List (ℕ × ℕ) → Prop} (hk : Kept P I' live s)
    (hstart : ∀ j ∈ live, s.blocks j = s.blocks i → j = i)
    (hI : I mm ((live.map (payload s)).filter (·.1 ≠ s.blocks i))) (ranges : List Range) :
    Kept P I (live.erase i) { s with mm := mm, ranges := ranges } where
  nodup := hk.nodup.erase i
  held := by
    rw [filter_payload hstart hk.nodup] at hI
    exact hI
  sized := fun j hj => hk.sized j (List.mem_of_mem_erase hj)

/-- The payload of a package that keeps the contract is accepted. -/
theorem addRange_kept (opnum : ℕ) (hC : Contract P Start I) (hk : Kept P I live s)
    (hranges : s.ranges = live.map (range s)) (hpos : 0 < n) (hn : n < 2 ^ 31)
    (hI : I mm ((p, n) :: live.map (payload s))) :
    addRange P mm s.ranges p n opnum = .ok (⟨p, p + n - 1⟩ :: s.ranges) := by
  obtain ⟨hhi, hspan⟩ := hC.span hI
  obtain ⟨hdvd, hin⟩ := hC.inside hI _ List.mem_cons_self
  have hrec : ∀ q ∈ s.ranges, ∃ j ∈ live, q = range s j ∧ q.lo ≤ q.hi ∧
      q.hi + 1 - q.lo = s.blockSizes j := by
    intro q hq
    rw [hranges, List.mem_map] at hq
    obtain ⟨j, hj, rfl⟩ := hq
    have hposj := hk.sized j hj
    refine ⟨j, hj, rfl, ?_⟩
    simp only [range]
    omega
  refine (addRange_ok_iff hhi hspan (by omega) fun q hq => ?_).mpr
    ⟨⟨hpos, hn⟩, hdvd, hin, fun q hq => Or.inl ?_, rfl⟩
  · obtain ⟨j, -, -, hle, -⟩ := hrec q hq
    exact hle
  · obtain ⟨j, hj, rfl, -, hlen⟩ := hrec q hq
    have hapart := (List.pairwise_cons.mp (hC.apart hI)).1 (payload s j) (List.mem_map_of_mem hj)
    rw [hlen]
    exact hapart

/-- A request that the package serves is passed; the only other end is a refused one. -/
theorem validOp_kept (hC : Contract P Start I) (hA : Answers P Start I Fits)
    (hk : Kept P I live s) (hranges : s.ranges = live.map (range s)) {op : TraceOp}
    (hop : plain numIds live op) (hfits : Asks Fits op) :
    (∃ s', validOp P numIds opnum op s = some (.ok s') ∧ Kept P I (liveNext live op) s' ∧
        s'.ranges = (liveNext live op).map (range s')) ∨
      ∃ e, validOp P numIds opnum op s = some (.error e) ∧
        e = .mallocError opnum .mallocFailed ∧ ∃ i n, op = .alloc i n := by
  cases op with
  | realloc index size => exact hop.elim
  | alloc index size =>
    obtain ⟨hid, hnew, hpos, hsize⟩ := hop
    obtain ⟨⟨m', p⟩, hcall⟩ := Option.isSome_iff_exists.mp (hA.malloc hk.held hpos hsize hfits)
    obtain ⟨-, ⟨rfl, -⟩ | ⟨hp, hI⟩⟩ := hC.malloc hk.held hpos hsize hcall
    · refine Or.inr ⟨_, ?_, rfl, index, size, rfl⟩
      simp only [validOp, hcall, Option.bind_eq_bind, Option.bind_some, if_true]
    · have hadd := addRange_kept opnum hC hk hranges hpos hsize hI
      obtain ⟨hset, -⟩ := memset_kept hC hI List.mem_cons_self
        (UInt8.ofNat (lowByte index)) size le_rfl
      refine Or.inl ⟨_, ?_, hk.place hnew hpos hset (⟨p, p + size - 1⟩ :: s.ranges), ?_⟩
      · simp only [validOp, hcall, Option.bind_eq_bind, Option.bind_some, if_neg hp, hadd,
          if_neg (show ¬ numIds ≤ index by omega)]
      · rw [hranges, liveNext, List.map_cons]
        refine List.cons_eq_cons.mpr ⟨by simp [range], List.map_congr_left fun j hj => ?_⟩
        have hne : j ≠ index := fun h => hnew (h ▸ hj)
        simp only [range, Function.update_of_ne hne]
  | free index =>
    obtain ⟨hid, hin⟩ := hop
    obtain ⟨m', hcall, -, hI⟩ := hC.free hk.held (List.mem_map_of_mem hin)
    have hstart := hk.starts hC hin
    refine Or.inl ⟨_, ?_, hk.remove hstart hI (removeRange s.ranges (s.blocks index)), ?_⟩
    · have hcall' : P.mmFree s.mm (s.blocks index) = some m' := hcall
      simp only [validOp, if_neg (show ¬ numIds ≤ index by omega), hcall', Option.bind_eq_bind,
        Option.bind_some]
    · rw [hranges, liveNext]
      exact removeRange_map hstart

/-- On a trace of a program without reallocations, eval_mm_valid returns 1 for a package
that keeps the contract and answers the requests, unless `mm_init` or a `mm_malloc` has
refused for want of memory. -/
theorem contract_valid (hC : Contract P Start I) (hA : Answers P Start I Fits)
    (hstart : Start s.mm) {ops : List TraceOp} (hops : Plain numIds ops)
    (hfits : ∀ op ∈ ops, Asks Fits op) :
    (∃ t, evalMmValid P numIds ops s = some (.ok t) ∧ Kept P I (liveIds ops) t) ∨
      evalMmValid P numIds ops s = some (.error (.mallocError 0 .initFailed)) ∨
      ∃ pre i n post, ops = pre ++ .alloc i n :: post ∧ evalMmValid P numIds ops s =
        some (.error (.mallocError pre.length .mallocFailed)) := by
  obtain ⟨⟨m, r⟩, hinit⟩ := Option.isSome_iff_exists.mp (hA.init hstart)
  have hr := hC.init hstart hinit
  have hvalid : ∀ {x}, evalMmValid P numIds ops s = x ↔
      (if r < 0 then some (.error (.mallocError 0 .initFailed))
        else runFrom (validOp P numIds) 0 ops { s with mm := m, ranges := [] }) = x := by
    intro x
    simp only [evalMmValid, hinit, Option.bind_eq_bind, Option.bind_some]
  simp only [hvalid]
  by_cases hneg : r < 0
  · exact Or.inr (Or.inl (if_pos hneg))
  · have hI := hr.resolve_left hneg
    simp only [if_neg hneg]
    have hkeep : ∀ live i op (s : Eval σ),
        (Kept P I live s ∧ s.ranges = live.map (range s)) →
        (plain numIds live op ∧ Asks Fits op) →
        (∃ s', validOp P numIds i op s = some (.ok s') ∧
          (Kept P I (liveNext live op) s' ∧ s'.ranges = (liveNext live op).map (range s'))) ∨
        ∃ e, validOp P numIds i op s = some (.error e) ∧
          (e = .mallocError i .mallocFailed ∧ ∃ id n, op = .alloc id n) :=
      fun live i op s hs hop => validOp_kept hC hA hs.1 hs.2 hop.1 hop.2
    have hempty : Kept P I [] { s with mm := m, ranges := [] } :=
      ⟨List.nodup_nil, hI, by simp⟩
    rcases runFrom_total hkeep ops (hops.and hfits) ⟨hempty, rfl⟩ with ⟨t, ht, hkept, -⟩ |
      ⟨pre, op, post, e, rfl, hrun, rfl, i, n, rfl⟩
    · exact Or.inl ⟨t, ht, hkept⟩
    · refine Or.inr (Or.inr ⟨pre, i, n, post, rfl, ?_⟩)
      rw [hrun, Nat.zero_add]

end Steps

section Utilization

variable {P : Package σ} {Start : σ → Prop} {I : σ → List (ℕ × ℕ) → Prop} {live : List ℕ}
  {numIds opnum : ℕ} {ops : List TraceOp} {op : TraceOp} {s : Eval σ} {u u' t : Util σ}

/-- What is held has room in the heap. -/
theorem bytes_le_heapsize (hC : Contract P Start I) (hc : Counts ops u) (hops : Proper numIds ops)
    (hk : Kept P I (liveIds ops) u.toEval) : bytes (heldAfter ops) ≤ P.memHeapsize u.mm := by
  have hsum : (heldAfter ops).map Prod.snd =
      ((liveIds ops).map (payload u.toEval)).map Prod.snd := by
    rw [← (heldAfter_fst hops).1, List.map_map, List.map_map]
    exact List.map_congr_left fun x hx => (hc.sizes x hx).1.symm
  rw [bytes, hsum, hC.heapsize hk.held]
  exact sum_le_of_apart (hC.apart hk.held) fun x hx => (hC.inside hk.held x hx).2

theorem heapsize_mono (hC : Contract P Start I) {m m' : σ} {used used' : List (ℕ × ℕ)}
    (hI : I m used) (hI' : I m' used') (hgrown : Grown P m m') :
    P.memHeapsize m ≤ P.memHeapsize m' := by
  rw [hC.heapsize hI, hC.heapsize hI', hgrown.1]
  have := hgrown.2
  omega

theorem utilOp_kept (hC : Contract P Start I) (hk : Kept P I live u.toEval)
    (hop : plain numIds live op) (hstep : utilOp P numIds opnum op u = some (.ok u')) :
    Kept P I (liveNext live op) u'.toEval ∧ Grown P u.mm u'.mm := by
  cases op with
  | realloc index size => exact hop.elim
  | alloc index size =>
    obtain ⟨hid, hnew, hpos, hsize⟩ := hop
    simp only [utilOp, Option.bind_eq_bind, Option.bind_eq_some_iff] at hstep
    obtain ⟨⟨m', p⟩, hcall, hstep⟩ := hstep
    obtain ⟨hgrown, hI⟩ := hC.malloc hk.held hpos hsize hcall
    split at hstep
    · cases hstep
    · next hp =>
      rw [if_neg (by omega)] at hstep
      obtain rfl := Except.ok.inj (Option.some.inj hstep)
      exact ⟨hk.place hnew hpos (hI.resolve_left fun h => hp h.1).2 u.ranges, hgrown⟩
  | free index =>
    obtain ⟨hid, hin⟩ := hop
    obtain ⟨m', hcall, hgrown, hI⟩ := hC.free hk.held (List.mem_map_of_mem hin)
    have hcall' : P.mmFree u.mm (u.blocks index) = some m' := hcall
    simp only [utilOp, if_neg (show ¬ numIds ≤ index by omega), hcall', Option.bind_eq_bind,
      Option.bind_some] at hstep
    obtain rfl := Except.ok.inj (Option.some.inj hstep)
    exact ⟨hk.remove (hk.starts hC hin) hI u.ranges, hgrown⟩

/-- The utilization of a package that keeps the contract is a fraction between 0 and 1. -/
theorem contract_util (hC : Contract P Start I) (hstart : Start s.mm) (hops : Plain numIds ops)
    (hrun : evalMmUtil P numIds ops s = some (.ok t)) :
    highWater ops ≤ P.memHeapsize t.mm ∧ Kept P I (liveIds ops) t.toEval := by
  simp only [evalMmUtil, Option.bind_eq_bind, Option.bind_eq_some_iff] at hrun
  obtain ⟨⟨m, r⟩, hinit, hrun⟩ := hrun
  have hr := hC.init hstart hinit
  split at hrun
  · cases hrun
  next hneg =>
  have hkeep : ∀ (pre : List TraceOp) i op (u u' : Util σ),
      (Proper numIds pre ∧ Counts pre u ∧ Kept P I (liveIds pre) u.toEval ∧
        highWater pre ≤ P.memHeapsize u.mm) →
      plain numIds (pre.foldl liveNext []) op → utilOp P numIds i op u = some (.ok u') →
      Proper numIds (pre ++ [op]) ∧ Counts (pre ++ [op]) u' ∧
        Kept P I (liveIds (pre ++ [op])) u'.toEval ∧
        highWater (pre ++ [op]) ≤ P.memHeapsize u'.mm := by
    rintro pre i op u u' ⟨hpre, hc, hk, hle⟩ hop hstep
    have hpre' : Proper numIds (pre ++ [op]) :=
      allowed_append.mpr ⟨hpre, proper_of_plain hop, trivial⟩
    have hc' := utilOp_counts hc hpre (proper_of_plain hop) hstep
    obtain ⟨hk', hgrown⟩ := utilOp_kept hC hk hop hstep
    rw [← liveIds_append] at hk'
    refine ⟨hpre', hc', hk', ?_⟩
    rw [highWater_append]
    exact max_le (hle.trans (heapsize_mono hC hk.held hk'.held hgrown))
      (bytes_le_heapsize hC hc' hpre' hk')
  have hk : Kept P I (liveIds []) { s with mm := m } :=
    ⟨List.nodup_nil, hr.resolve_left hneg, by simp⟩
  have hend := runFrom_prefix_invariant hkeep ops [] hops
    ⟨trivial, counts_nil m, hk, Nat.zero_le _⟩ hrun
  exact ⟨hend.2.2.2, hend.2.2.1⟩

end Utilization

end SystemSoftware.TraceContract
