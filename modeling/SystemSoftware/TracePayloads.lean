import SystemSoftware.TraceDriver

/-!
What a run of eval_mm_valid that returns 1 says about the package. The range list holds
the payloads of the ids in use, the newest first. Each payload is aligned and inside
the heap, and no end of it lies inside an older one; an older payload that a newer one
encloses is not noticed. The comparison of the old bytes is one of signed characters.
-/
namespace SystemSoftware.TracePayloads

open ByteMemory EarlyExit Intervals TraceDriver

def liveNext (live : List ℕ) : TraceOp → List ℕ
  | .alloc index _ => index :: live
  | .realloc index _ => index :: live.erase index
  | .free index => live.erase index

/-- A request of a program: sizes are positive ints, a new block is for an id that is
not in use, and only blocks in use are reallocated and freed. -/
def proper (numIds : ℕ) (live : List ℕ) : TraceOp → Prop
  | .alloc index size => index < numIds ∧ index ∉ live ∧ 0 < size ∧ size < 2 ^ 31
  | .realloc index size => index < numIds ∧ index ∈ live ∧ 0 < size ∧ size < 2 ^ 31
  | .free index => index < numIds ∧ index ∈ live

instance (numIds : ℕ) (live : List ℕ) : ∀ op, Decidable (proper numIds live op)
  | .alloc _ _ => inferInstanceAs (Decidable (_ ∧ _))
  | .realloc _ _ => inferInstanceAs (Decidable (_ ∧ _))
  | .free _ => inferInstanceAs (Decidable (_ ∧ _))

abbrev Proper (numIds : ℕ) (ops : List TraceOp) : Prop := Allowed (proper numIds) liveNext [] ops

abbrev liveIds (ops : List TraceOp) : List ℕ := ops.foldl liveNext []

section Definitions

variable {σ : Type*} (P : Package σ)

def payload (s : Eval σ) (i : ℕ) : ℕ × ℕ := (s.blocks i, s.blockSizes i)

def range (s : Eval σ) (i : ℕ) : Range := ⟨s.blocks i, s.blocks i + s.blockSizes i - 1⟩

def Grown (m m' : σ) : Prop :=
  P.memHeapLo m' = P.memHeapLo m ∧ P.memHeapHi m ≤ P.memHeapHi m'

/-- The memory below a package, as memlib.c keeps it: the heap is never cut, and it has
less than 2^31 bytes. -/
structure Bounded (Good : σ → Prop) : Prop where
  span : ∀ {m}, Good m → P.memHeapHi m < 2 ^ 32 ∧ P.memHeapHi m < P.memHeapLo m + 2 ^ 31
  start : ∀ {m m' r}, Good m → P.mmInit (P.memResetBrk m) = some (m', r) → Good m'
  malloc : ∀ {m m' size p}, Good m → P.mmMalloc m size = some (m', p) → Good m' ∧ Grown P m m'
  realloc : ∀ {m m' ptr size p}, Good m → P.mmRealloc m ptr size = some (m', p) →
    Good m' ∧ Grown P m m'
  free : ∀ {m m' ptr}, Good m → P.mmFree m ptr = some m' → Good m' ∧ Grown P m m'
  store : ∀ {m}, Good m → ∀ p v, Good (P.store m p v) ∧ Grown P m (P.store m p v)

structure Tracks (live : List ℕ) (s : Eval σ) : Prop where
  nodup : live.Nodup
  ranges : s.ranges = live.map (range s)
  sized : ∀ i ∈ live, 0 < s.blockSizes i ∧ s.blockSizes i < 2 ^ 31
  placed : live.Pairwise fun i j =>
    Apart (payload s i) (payload s j) ∨ Encloses (payload s i) (payload s j)
  inside : ∀ i ∈ live, 8 ∣ s.blocks i ∧
    Within (P.memHeapLo s.mm) (P.memHeapHi s.mm + 1) (payload s i)

end Definitions

section Ranges

variable {σ : Type*} {P : Package σ} {mm : σ} {ranges r : List Range} {lo size i : ℕ}

theorem toInt_pos_iff (hsize : size < 2 ^ 32) : ¬ toInt size ≤ 0 ↔ 0 < size ∧ size < 2 ^ 31 := by
  unfold toInt
  split <;> omega

/-- The last address of a payload that begins in the heap, if it is in the heap too. -/
theorem last_address (lo : ℕ) {heapLo heapHi : ℕ} (hhi : heapHi < 2 ^ 32)
    (hspan : heapHi < heapLo + 2 ^ 31) (hpos : 0 < size) (hsize : size < 2 ^ 31) :
    ¬ (lo < heapLo ∨ heapHi < lo ∨ sub32 (add32 lo size) 1 < heapLo ∨
        heapHi < sub32 (add32 lo size) 1) ↔
      Within heapLo (heapHi + 1) (lo, size) := by
  simp only [Within, sub32, add32]
  omega

theorem last_address_eq {heapLo heapHi : ℕ} (hhi : heapHi < 2 ^ 32) (hpos : 0 < size)
    (h : Within heapLo (heapHi + 1) (lo, size)) : sub32 (add32 lo size) 1 = lo + size - 1 := by
  simp only [Within] at h
  simp only [sub32, add32]
  omega

/-- The loop over the range list finds nothing: the payload is apart from every one of
the list or around it. -/
theorem find_overlap_iff (lo : ℕ) (hpos : 0 < size) (hranges : ∀ p ∈ ranges, p.lo ≤ p.hi) :
    (ranges.find? fun p => (p.lo ≤ lo ∧ lo ≤ p.hi) ∨
        (p.lo ≤ lo + size - 1 ∧ lo + size - 1 ≤ p.hi)) = none ↔
      ∀ p ∈ ranges, Apart (lo, size) (p.lo, p.hi + 1 - p.lo) ∨
        Encloses (lo, size) (p.lo, p.hi + 1 - p.lo) := by
  rw [List.find?_eq_none]
  refine forall₂_congr fun p hp => ?_
  have hle := hranges p hp
  rw [← ends_outside_iff hpos (show 0 < p.hi + 1 - p.lo by omega), decide_eq_true_eq]
  simp only
  omega

/-- A payload is accepted exactly when it is aligned, in the heap, and apart from every
payload of the list or around it. -/
theorem addRange_ok_iff (hhi : P.memHeapHi mm < 2 ^ 32)
    (hspan : P.memHeapHi mm < P.memHeapLo mm + 2 ^ 31) (hsize : size < 2 ^ 32)
    (hranges : ∀ p ∈ ranges, p.lo ≤ p.hi) :
    addRange P mm ranges lo size i = .ok r ↔
      (0 < size ∧ size < 2 ^ 31) ∧ 8 ∣ lo ∧
        Within (P.memHeapLo mm) (P.memHeapHi mm + 1) (lo, size) ∧
        (∀ p ∈ ranges, Apart (lo, size) (p.lo, p.hi + 1 - p.lo) ∨
          Encloses (lo, size) (p.lo, p.hi + 1 - p.lo)) ∧
        r = ⟨lo, lo + size - 1⟩ :: ranges := by
  have halign : lo % alignment ≠ 0 ↔ ¬ 8 ∣ lo := by
    simp only [alignment]
    omega
  by_cases hpos : 0 < size ∧ size < 2 ^ 31
  swap
  · have hint := (not_congr (toInt_pos_iff hsize)).mpr hpos
    rw [not_not] at hint
    simp only [addRange, if_pos hint, hpos, false_and, reduceCtorEq]
  have hint : ¬ toInt size ≤ 0 := (toInt_pos_iff hsize).mpr hpos
  by_cases hdvd : 8 ∣ lo
  swap
  · simp only [addRange, if_neg hint, if_pos (halign.mpr hdvd), hdvd, false_and, and_false,
      reduceCtorEq]
  have hmod : ¬ lo % alignment ≠ 0 := fun h => halign.mp h hdvd
  by_cases hin : Within (P.memHeapLo mm) (P.memHeapHi mm + 1) (lo, size)
  swap
  · have hcond := (not_congr (last_address lo hhi hspan hpos.1 hpos.2)).mpr hin
    rw [not_not] at hcond
    simp only [addRange, if_neg hint, if_neg hmod, if_pos hcond, hin, false_and, and_false,
      reduceCtorEq]
  have hlast := last_address_eq hhi hpos.1 hin
  have hcond := (last_address lo hhi hspan hpos.1 hpos.2).mpr hin
  rw [hlast] at hcond
  have hclear := find_overlap_iff lo hpos.1 hranges
  simp only [addRange, if_neg hint, if_neg hmod, hlast, if_neg hcond]
  cases hfind : ranges.find? fun p => (p.lo ≤ lo ∧ lo ≤ p.hi) ∨
      (p.lo ≤ lo + size - 1 ∧ lo + size - 1 ≤ p.hi) with
  | some p =>
    have hnot := fun hall => Option.some_ne_none _ (hfind.symm.trans (hclear.mpr hall))
    simp only [reduceCtorEq, false_iff]
    exact fun h => hnot h.2.2.2.1
  | none =>
    have hall := hclear.mp hfind
    simp only [Except.ok.injEq, eq_comm (a := r)]
    exact ⟨fun h => ⟨hpos, hdvd, hin, hall, h⟩, fun h => h.2.2.2.2⟩

end Ranges

section Memory

variable {σ : Type*} {P : Package σ} {Good : σ → Prop} {m m' m'' : σ}

theorem Grown.refl (m : σ) : Grown P m m := ⟨rfl, le_rfl⟩

theorem Grown.trans (h₁ : Grown P m m') (h₂ : Grown P m' m'') : Grown P m m'' :=
  ⟨h₂.1.trans h₁.1, h₁.2.trans h₂.2⟩

theorem memset_grown (hB : Bounded P Good) (hm : Good m) (p : ℕ) (v : UInt8) :
    ∀ n, Good (memset P m p v n) ∧ Grown P m (memset P m p v n)
  | 0 => ⟨hm, Grown.refl m⟩
  | n + 1 =>
    have ⟨hgood, hgrown⟩ := memset_grown hB hm p v n
    have ⟨hgood', hgrown'⟩ := hB.store hgood (p + n) v
    ⟨hgood', hgrown.trans hgrown'⟩

end Memory

section Tracks

variable {σ : Type*} {P : Package σ} {live : List ℕ} {s : Eval σ} {i : ℕ}

theorem Tracks.grow (ht : Tracks P live s) {m : σ} (hm : Grown P s.mm m) :
    Tracks P live { s with mm := m } where
  nodup := ht.nodup
  ranges := ht.ranges
  sized := ht.sized
  placed := ht.placed
  inside := by
    intro i hi
    obtain ⟨hdvd, hlo, hhi⟩ := ht.inside i hi
    have hle := hm.2
    refine ⟨hdvd, ?_, ?_⟩
    · exact hm.1.le.trans hlo
    · exact hhi.trans (Nat.succ_le_succ hle)

/-- Payloads that are not empty and of which none begins or ends inside another one begin
at different addresses. -/
theorem starts_of_placed (hsized : ∀ i ∈ live, 0 < s.blockSizes i)
    (hplaced : live.Pairwise fun i j =>
      Apart (payload s i) (payload s j) ∨ Encloses (payload s i) (payload s j)) :
    ∀ i ∈ live, ∀ j ∈ live, s.blocks i = s.blocks j → i = j := by
  have hpair : live.Pairwise fun i j => s.blocks i = s.blocks j → i = j := by
    refine hplaced.imp_of_mem fun {i j} hi hj hends heq => ?_
    have hposi := hsized i hi
    have hposj := hsized j hj
    simp only [Apart, Encloses, payload, heq] at hends
    omega
  intro i hi j hj heq
  have hsymm : Std.Symm fun i j => s.blocks i = s.blocks j → i = j :=
    ⟨fun _ _ h heq => (h heq.symm).symm⟩
  exact hpair.forall_of_forall (fun _ _ _ => rfl) hi hj heq

theorem Tracks.starts (ht : Tracks P live s) :
    ∀ i ∈ live, ∀ j ∈ live, s.blocks i = s.blocks j → i = j :=
  starts_of_placed (fun i hi => (ht.sized i hi).1) ht.placed

/-- The first record that begins at the block of an id in use is the record of that id. -/
theorem removeRange_map (hstart : ∀ j ∈ live, s.blocks j = s.blocks i → j = i) :
    removeRange (live.map (range s)) (s.blocks i) = (live.erase i).map (range s) := by
  induction live with
  | nil => rfl
  | cons j live ih =>
    rw [removeRange, List.map_cons]
    by_cases hji : j = i
    · subst hji
      rw [List.erase_cons_head, List.eraseP_cons_of_pos (by simp [range])]
    · have hne : s.blocks j ≠ s.blocks i := fun h => hji (hstart j List.mem_cons_self h)
      rw [List.erase_cons_tail (by simpa using hji), List.map_cons,
        List.eraseP_cons_of_neg (by simp [range, hne])]
      exact congrArg _ (ih fun k hk => hstart k (List.mem_cons_of_mem _ hk))

theorem Tracks.remove (ht : Tracks P live s) (hi : i ∈ live) :
    Tracks P (live.erase i) { s with ranges := removeRange s.ranges (s.blocks i) } where
  nodup := ht.nodup.erase i
  ranges := by
    rw [ht.ranges]
    exact removeRange_map fun j hj h => ht.starts j hj i hi h
  sized := fun j hj => ht.sized j (List.mem_of_mem_erase hj)
  placed := ht.placed.sublist List.erase_sublist
  inside := fun j hj => ht.inside j (List.mem_of_mem_erase hj)

variable {mm : σ} {p size opnum : ℕ} {ranges : List Range}

/-- An accepted payload is tracked. -/
theorem Tracks.place (ht : Tracks P live s) (hnew : i ∉ live)
    (hspan : P.memHeapHi s.mm < 2 ^ 32 ∧ P.memHeapHi s.mm < P.memHeapLo s.mm + 2 ^ 31)
    (hsize : size < 2 ^ 31) (hadd : addRange P s.mm s.ranges p size opnum = .ok ranges)
    (hgrown : Grown P s.mm mm) :
    Tracks P (i :: live) ⟨mm, ranges, Function.update s.blocks i p,
      Function.update s.blockSizes i size⟩ := by
  have hranges : ∀ q ∈ s.ranges, q.lo ≤ q.hi := by
    intro q hq
    rw [ht.ranges, List.mem_map] at hq
    obtain ⟨j, hj, rfl⟩ := hq
    have hpos := (ht.sized j hj).1
    simp only [range]
    omega
  obtain ⟨hpos, hdvd, hin, hclear, rfl⟩ :=
    (addRange_ok_iff hspan.1 hspan.2 (by omega) hranges).mp hadd
  have hne : ∀ j ∈ live, j ≠ i := fun j hj h => hnew (h ▸ hj)
  have hblock : ∀ j ∈ live, Function.update s.blocks i p j = s.blocks j :=
    fun j hj => Function.update_of_ne (hne j hj) ..
  have hlength : ∀ j ∈ live, Function.update s.blockSizes i size j = s.blockSizes j :=
    fun j hj => Function.update_of_ne (hne j hj) ..
  have hgrow := ht.grow hgrown
  refine ⟨List.nodup_cons.mpr ⟨hnew, ht.nodup⟩, ?_, ?_, ?_, ?_⟩
  · rw [List.map_cons, ht.ranges]
    refine List.cons_eq_cons.mpr ⟨by simp [range], List.map_congr_left fun j hj => ?_⟩
    simp only [range, hblock j hj, hlength j hj]
  · rintro j (_ | ⟨_, hj⟩)
    · simpa using hpos
    · simpa only [hlength j hj] using ht.sized j hj
  · rw [List.pairwise_cons]
    constructor
    · intro j hj
      have hrec := hclear (range s j) (by rw [ht.ranges]; exact List.mem_map_of_mem hj)
      have hposj := (ht.sized j hj).1
      have hlen : (range s j).hi + 1 - (range s j).lo = s.blockSizes j := by
        simp only [range]
        omega
      rw [hlen, show (range s j).lo = s.blocks j from rfl] at hrec
      simpa only [payload, Function.update_self, hblock j hj, hlength j hj] using hrec
    · refine ht.placed.imp_of_mem fun {j k} hj hk hplaced => ?_
      simpa only [payload, hblock j hj, hlength j hj, hblock k hk, hlength k hk] using hplaced
  · rintro j (_ | ⟨_, hj⟩)
    · refine ⟨by simpa using hdvd, ?_, ?_⟩
      · simpa [payload] using hgrown.1.le.trans hin.1
      · simpa [payload] using hin.2.trans (Nat.succ_le_succ hgrown.2)
    · simpa only [payload, hblock j hj, hlength j hj] using hgrow.inside j hj

end Tracks

section Runs

variable {σ : Type*} {P : Package σ} {Good : σ → Prop} {numIds opnum : ℕ} {live : List ℕ}
  {op : TraceOp} {s s' t : Eval σ}

/-- What a request that is passed leaves. -/
theorem validOp_tracks (hB : Bounded P Good) (hgood : Good s.mm) (ht : Tracks P live s)
    (hop : proper numIds live op) (hstep : validOp P numIds opnum op s = some (.ok s')) :
    Good s'.mm ∧ Tracks P (liveNext live op) s' := by
  cases op with
  | alloc index size =>
    obtain ⟨hid, hnew, hpos, hsize⟩ := hop
    simp only [validOp, Option.bind_eq_bind, Option.bind_eq_some_iff] at hstep
    obtain ⟨⟨mm, p⟩, hcall, hstep⟩ := hstep
    obtain ⟨hgood', hgrown⟩ := hB.malloc hgood hcall
    obtain ⟨hset, hset'⟩ :=
      memset_grown hB hgood' p (UInt8.ofNat (lowByte index)) size
    split at hstep
    · cases hstep
    split at hstep
    · cases hstep
    · next ranges hadd =>
      rw [if_neg (by omega)] at hstep
      obtain rfl := Except.ok.inj (Option.some.inj hstep)
      exact ⟨hset, (ht.grow hgrown).place hnew (hB.span hgood') hsize hadd hset'⟩
  | realloc index size =>
    obtain ⟨hid, hin, hpos, hsize⟩ := hop
    simp only [validOp, if_neg (show ¬ numIds ≤ index by omega), Option.bind_eq_bind,
      Option.bind_eq_some_iff] at hstep
    obtain ⟨⟨mm, p⟩, hcall, hstep⟩ := hstep
    obtain ⟨hgood', hgrown⟩ := hB.realloc hgood hcall
    obtain ⟨hset, hset'⟩ :=
      memset_grown hB hgood' p (UInt8.ofNat (lowByte index)) size
    split at hstep
    · cases hstep
    split at hstep
    · cases hstep
    · next ranges hadd =>
      split at hstep
      · obtain rfl := Except.ok.inj (Option.some.inj hstep)
        refine ⟨hset, ((ht.remove hin).grow hgrown).place ?_ (hB.span hgood') hsize hadd hset'⟩
        exact ht.nodup.not_mem_erase
      · cases hstep
  | free index =>
    obtain ⟨hid, hin⟩ := hop
    simp only [validOp, if_neg (show ¬ numIds ≤ index by omega), Option.bind_eq_bind,
      Option.bind_eq_some_iff] at hstep
    obtain ⟨mm, hcall, hstep⟩ := hstep
    obtain ⟨hgood', hgrown⟩ := hB.free hgood hcall
    obtain rfl := Except.ok.inj (Option.some.inj hstep)
    exact ⟨hgood', (ht.remove hin).grow hgrown⟩

theorem tracks_nil (mm : σ) : Tracks P [] { s with mm := mm, ranges := [] } where
  nodup := List.nodup_nil
  ranges := rfl
  sized := by simp
  placed := List.Pairwise.nil
  inside := by simp

/-- A run that returns 1 has passed `mm_init` and every request. -/
theorem evalMmValid_ok {ops : List TraceOp} : evalMmValid P numIds ops s = some (.ok t) ↔
    ∃ mm r, P.mmInit (P.memResetBrk s.mm) = some (mm, r) ∧ 0 ≤ r ∧
      runFrom (validOp P numIds) 0 ops { s with mm := mm, ranges := [] } = some (.ok t) := by
  simp only [evalMmValid, Option.bind_eq_bind, Option.bind_eq_some_iff, Prod.exists]
  refine exists₂_congr fun mm r => and_congr_right fun _ => ?_
  by_cases hr : r < 0
  · simp [hr]
  · simp [hr, not_lt.mp hr]

/-- When eval_mm_valid returns 1 on a trace of a program, then before every request, and
at the end, the range list holds the payloads in use, the newest first; they are aligned
and inside the heap, and of any two the newer one is apart from the older or around it. -/
theorem valid_payloads (hB : Bounded P Good) (hgood : Good s.mm) {pre post : List TraceOp}
    (hops : Proper numIds (pre ++ post)) (hvalid : evalMmValid P numIds (pre ++ post) s =
      some (.ok t)) :
    ∃ m, evalMmValid P numIds pre s = some (.ok m) ∧
      m.ranges = (liveIds pre).map (range m) ∧
      (∀ i ∈ liveIds pre, 8 ∣ m.blocks i ∧
        Within (P.memHeapLo m.mm) (P.memHeapHi m.mm + 1) (payload m i)) ∧
      (liveIds pre).Pairwise fun i j =>
        Apart (payload m i) (payload m j) ∨ Encloses (payload m i) (payload m j) := by
  obtain ⟨mm, r, hinit, hr, hrun⟩ := evalMmValid_ok.mp hvalid
  obtain ⟨m, hpre, -⟩ := runFrom_append_ok.mp hrun
  have hkeep : ∀ live i op (s s' : Eval σ), Good s.mm ∧ Tracks P live s →
      proper numIds live op → validOp P numIds i op s = some (.ok s') →
      Good s'.mm ∧ Tracks P (liveNext live op) s' :=
    fun _ _ _ _ _ hs hop hstep => validOp_tracks hB hs.1 hs.2 hop hstep
  have htracks := runFrom_invariant hkeep (allowed_append.mp hops).1
    ⟨hB.start hgood hinit, tracks_nil mm⟩ hpre
  exact ⟨m, evalMmValid_ok.mpr ⟨mm, r, hinit, hr, hpre⟩, htracks.2.ranges, htracks.2.inside,
    htracks.2.placed⟩

end Runs

section Reallocated

variable {σ : Type*} {P : Package σ} {numIds opnum index n : ℕ} {live : List ℕ} {op : TraceOp}
  {s s' t : Eval σ} {mm : σ} {p : ℕ}

theorem signedChar_eq_iff {c : UInt8} {k : ℕ} (hk : k < 256) :
    signedChar c = (k : Int) ↔ k < 128 ∧ c = UInt8.ofNat k := by
  have hlt : c.toNat < 256 := c.toNat_lt
  have hof : (UInt8.ofNat k).toNat = k := by
    rw [UInt8.toNat_ofNat']
    omega
  rw [← UInt8.toNat_inj, hof, signedChar]
  split <;> omega

/-- The comparison finds the low byte of an id only when that is a positive character. -/
theorem preserved_iff : preserved P mm p index n = true ↔
    (n = 0 ∨ lowByte index < 128) ∧
      ∀ j < n, P.load mm (p + j) = UInt8.ofNat (lowByte index) := by
  have hlow : lowByte index < 256 := Nat.mod_lt _ (by norm_num)
  simp only [preserved, List.all_eq_true, List.mem_range, decide_eq_true_eq,
    signedChar_eq_iff hlow]
  constructor
  · refine fun h => ⟨?_, fun j hj => (h j hj).2⟩
    rcases Nat.eq_zero_or_pos n with hn | hn
    · exact Or.inl hn
    · exact Or.inr (h 0 hn).1
  · rintro ⟨hn | hn, h⟩ j hj
    · omega
    · exact ⟨hn, h j hj⟩

/-- The lengths that the driver keeps are positive ints. -/
theorem validOp_sized (hs : ∀ i ∈ live, 0 < s.blockSizes i ∧ s.blockSizes i < 2 ^ 31)
    (hop : proper numIds live op) (hstep : validOp P numIds opnum op s = some (.ok s')) :
    ∀ i ∈ liveNext live op, 0 < s'.blockSizes i ∧ s'.blockSizes i < 2 ^ 31 := by
  have hupdate : ∀ {index size : ℕ}, 0 < size ∧ size < 2 ^ 31 → ∀ i, (i ≠ index → i ∈ live) →
      0 < Function.update s.blockSizes index size i ∧
        Function.update s.blockSizes index size i < 2 ^ 31 := by
    intro index size hsize i hi
    by_cases heq : i = index
    · subst heq
      simpa using hsize
    · simpa only [Function.update_of_ne heq] using hs i (hi heq)
  cases op with
  | alloc index size =>
    obtain ⟨hid, -, hsize⟩ := hop
    simp only [validOp, Option.bind_eq_bind, Option.bind_eq_some_iff] at hstep
    obtain ⟨⟨mm, p⟩, -, hstep⟩ := hstep
    split at hstep
    · cases hstep
    split at hstep
    · cases hstep
    · rw [if_neg (by omega)] at hstep
      obtain rfl := Except.ok.inj (Option.some.inj hstep)
      exact fun i hi => hupdate hsize i fun hne => (List.mem_cons.mp hi).resolve_left hne
  | realloc index size =>
    obtain ⟨hid, -, hsize⟩ := hop
    simp only [validOp, if_neg (show ¬ numIds ≤ index by omega), Option.bind_eq_bind,
      Option.bind_eq_some_iff] at hstep
    obtain ⟨⟨mm, p⟩, -, hstep⟩ := hstep
    split at hstep
    · cases hstep
    split at hstep
    · cases hstep
    · split at hstep
      · obtain rfl := Except.ok.inj (Option.some.inj hstep)
        exact fun i hi => hupdate hsize i fun hne =>
          List.mem_of_mem_erase ((List.mem_cons.mp hi).resolve_left hne)
      · cases hstep
  | free index =>
    simp only [validOp, if_neg (show ¬ numIds ≤ index by have := hop.1; omega),
      Option.bind_eq_bind, Option.bind_eq_some_iff] at hstep
    obtain ⟨mm, -, hstep⟩ := hstep
    obtain rfl := Except.ok.inj (Option.some.inj hstep)
    exact fun i hi => hs i (List.mem_of_mem_erase hi)

/-- When eval_mm_valid returns 1, each reallocated block began with as many bytes of the
low byte of its id as the smaller of its two sizes; and that byte is below 128, since the
comparison fails for every other id, whatever the package has done. -/
theorem valid_reallocs {pre post : List TraceOp}
    (hops : Proper numIds (pre ++ .realloc index n :: post))
    (hvalid : evalMmValid P numIds (pre ++ .realloc index n :: post) s = some (.ok t)) :
    lowByte index < 128 ∧
      ∃ m mm p, evalMmValid P numIds pre s = some (.ok m) ∧
        P.mmRealloc m.mm (m.blocks index) n = some (mm, p) ∧ p ≠ null ∧
        ∀ j < min n (m.blockSizes index), P.load mm (p + j) = UInt8.ofNat (lowByte index) := by
  obtain ⟨mm₀, r, hinit, hr, hrun⟩ := evalMmValid_ok.mp hvalid
  obtain ⟨m, hpre, hrest⟩ := runFrom_append_ok.mp hrun
  obtain ⟨m', hstep, -⟩ := runFrom_cons_ok.mp hrest
  obtain ⟨hall, hop, -⟩ := allowed_append.mp hops
  have hkeep : ∀ live i op (s s' : Eval σ),
      (∀ i ∈ live, 0 < s.blockSizes i ∧ s.blockSizes i < 2 ^ 31) →
      proper numIds live op → validOp P numIds i op s = some (.ok s') →
      ∀ i ∈ liveNext live op, 0 < s'.blockSizes i ∧ s'.blockSizes i < 2 ^ 31 :=
    fun _ _ _ _ _ hs hop hstep => validOp_sized hs hop hstep
  obtain ⟨hid, hin, hpos, hsize⟩ := hop
  have hsized := runFrom_invariant hkeep hall (by simp) hpre index hin
  simp only [validOp, if_neg (show ¬ numIds ≤ index by omega), Option.bind_eq_bind,
    Option.bind_eq_some_iff] at hstep
  obtain ⟨⟨mm, p⟩, hcall, hstep⟩ := hstep
  split at hstep
  · cases hstep
  next hp =>
  split at hstep
  · cases hstep
  split at hstep
  · next hkept =>
    have hold : (oldsize m index n).toNat = min n (m.blockSizes index) := by
      simp only [oldsize, toInt, if_pos hsize, if_pos hsized.2]
      split <;> omega
    rw [hold] at hkept
    obtain ⟨hlow, hbytes⟩ := preserved_iff.mp hkept
    exact ⟨hlow.resolve_left (by omega), m, mm, p, evalMmValid_ok.mpr ⟨mm₀, r, hinit, hr, hpre⟩,
      hcall, hp, hbytes⟩
  · cases hstep

end Reallocated

end SystemSoftware.TracePayloads
