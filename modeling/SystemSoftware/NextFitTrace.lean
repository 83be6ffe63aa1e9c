import SystemSoftware.NextFitRuns

/-!
What `next_fit` reads. The loops are run with a log of the words they read and
of the blocks they come to; without the log they are the loops of the model.
Both loops end, they come to every block at most once, and they read nothing
but headers.
-/
namespace SystemSoftware.NextFitTrace

open ByteMemory BoundaryTags NextFitHeap NextFitBlocks NextFitSearch NextFitRuns

/-- The addresses read and the values `NEXT_BLOCK_BP` gave to `bp`, in order. -/
structure Log where
  reads : List ℕ := []
  visits : List ℕ := []

def Log.read (s : Log) (p : ℕ) : Log := { s with reads := s.reads ++ [p] }
def Log.visit (s : Log) (bp : ℕ) : Log := { s with visits := s.visits ++ [bp] }

abbrev Logged : Type → Type := StateT Log Option

def readWord (h : Heap) (p : ℕ) : Logged ℕ := fun s => (h.get p).map (fun w => (w, s.read p))

def visit (bp : ℕ) : Logged Unit := fun s => some ((), s.visit bp)

@[simp] theorem readWord_run (h : Heap) (p : ℕ) (s : Log) :
    (readWord h p).run s = (h.get p).map (fun w => (w, s.read p)) := rfl

@[simp] theorem visit_run (bp : ℕ) (s : Log) : (visit bp).run s = some ((), s.visit bp) := rfl

def getSizeLogged (h : Heap) (p : ℕ) : Logged ℕ := do
  return (← readWord h p) &&& notSeven

def isItAllocLogged (h : Heap) (p : ℕ) : Logged ℕ := do
  return (← readWord h p) &&& 1

def nextBlockBpLogged (h : Heap) (bp : ℕ) : Logged ℕ := do
  return add32 bp (← getSizeLogged h (headerP bp))

/-- `!IS_IT_ALLOC(header_p) && …`: the size is read only for a free block. -/
def freeAnd (h : Heap) (bp : ℕ) (longEnough : ℕ → Bool) : Logged Bool := do
  if (← isItAllocLogged h (headerP bp)) = 0 then
    return longEnough (← getSizeLogged h (headerP bp))
  else return false

def nextFitToEpilogueLogged (h : Heap) (adjSize : ℕ) : ℕ → ℕ → Logged (Option ℕ)
  | 0, _ => failure
  | fuel + 1, bp => do
    let bp ← nextBlockBpLogged h bp
    visit bp
    if ← freeAnd h bp (fun size => adjSize < size) then return some bp
    else if (← getSizeLogged h (headerP bp)) ≠ 0 then nextFitToEpilogueLogged h adjSize fuel bp
    else return none

def nextFitToLastLogged (h : Heap) (adjSize : ℕ) : ℕ → ℕ → Logged (Option ℕ)
  | 0, _ => failure
  | fuel + 1, bp =>
    if bp < h.lastBp then do
      let bp ← nextBlockBpLogged h bp
      visit bp
      if ← freeAnd h bp (fun size => adjSize ≤ size) then return some bp
      else nextFitToLastLogged h adjSize fuel bp
    else return none

def nextFitLogged (h : Heap) (adjSize : ℕ) : Logged (Heap × ℕ) := do
  match ← nextFitToEpilogueLogged h adjSize walkFuel h.lastBp with
  | some bp => return ({ h with lastBp := bp }, bp)
  | none =>
    match ← nextFitToLastLogged h adjSize walkFuel h.startBp with
    | some bp => return ({ h with lastBp := bp }, bp)
    | none => return (h, null)

/-- Without its log, from whatever log it starts, the run is `o`. -/
def Erases {α : Type} (x : Logged α) (o : Option α) : Prop := ∀ s, (x.run s).map Prod.fst = o

namespace Erases

variable {α β : Type} {x : Logged α} {o : Option α}

theorem pure (a : α) : Erases (pure a) (some a) := fun _ => rfl

theorem bind {f : α → Logged β} {g : α → Option β} (hx : Erases x o)
    (hf : ∀ a, Erases (f a) (g a)) : Erases (x >>= f) (o.bind g) := by
  intro s
  have ho := hx s
  rw [StateT.run_bind]
  cases hr : x.run s with
  | none =>
    rw [hr] at ho
    rw [← ho]
    rfl
  | some r =>
    rw [hr] at ho
    rw [← ho]
    exact hf r.1 r.2

theorem readWord (h : Heap) (p : ℕ) : Erases (readWord h p) (h.get p) := by
  intro s
  change ((h.get p).map _).map _ = _
  rw [Option.map_map]
  exact Option.map_id'

theorem getSize (h : Heap) (p : ℕ) : Erases (getSizeLogged h p) (getSize h p) :=
  (readWord h p).bind fun w => pure (w &&& notSeven)

theorem isItAlloc (h : Heap) (p : ℕ) : Erases (isItAllocLogged h p) (isItAlloc h p) :=
  (readWord h p).bind fun w => pure (w &&& 1)

theorem nextBlockBp (h : Heap) (bp : ℕ) : Erases (nextBlockBpLogged h bp) (nextBlockBp h bp) :=
  (getSize h (headerP bp)).bind fun n => pure (add32 bp n)

theorem visit {o : Option β} {k : Logged β} (bp : ℕ) (hk : Erases k o) :
    Erases (visit bp >>= fun _ => k) o :=
  fun s => hk (s.visit bp)

/-- Both macros look at one word, so reading the size cannot fail any more. -/
theorem freeAnd {o : ℕ → Bool → Option β} {k : Bool → Logged β} (h : Heap) (bp : ℕ)
    (longEnough : ℕ → Bool) (hk : ∀ size fit, NextFitHeap.getSize h (headerP bp) = some size →
      Erases (k fit) (o size fit)) :
    Erases (freeAnd h bp longEnough >>= k)
      (do let alloc ← NextFitHeap.isItAlloc h (headerP bp)
          let size ← NextFitHeap.getSize h (headerP bp)
          o size (decide (alloc = 0) && longEnough size)) := by
  intro s
  cases hw : h.get (headerP bp) with
  | none => simp [NextFitTrace.freeAnd, isItAllocLogged, NextFitHeap.isItAlloc, hw]
  | some w =>
    have hsize : NextFitHeap.getSize h (headerP bp) = some (w &&& notSeven) := by
      simp [NextFitHeap.getSize, hw]
    have hk' := fun fit s' => hk (w &&& notSeven) fit hsize s'
    by_cases halloc : w % 2 = 0
    · simp [NextFitTrace.freeAnd, isItAllocLogged, getSizeLogged, NextFitHeap.isItAlloc,
        NextFitHeap.getSize, hw, halloc, hk']
    · simp [NextFitTrace.freeAnd, isItAllocLogged, NextFitHeap.isItAlloc,
        NextFitHeap.getSize, hw, halloc, hk']

theorem nextFitToEpilogue (h : Heap) (adjSize : ℕ) : ∀ fuel bp,
    Erases (nextFitToEpilogueLogged h adjSize fuel bp) (nextFitToEpilogue h adjSize fuel bp) := by
  intro fuel
  induction fuel with
  | zero => exact fun bp s => rfl
  | succ fuel ih =>
    intro bp
    have hstep := (nextBlockBp h bp).bind fun bp => visit bp (freeAnd (o := fun size fit =>
      if fit then some (some bp)
      else if size ≠ 0 then NextFitHeap.nextFitToEpilogue h adjSize fuel bp else some none)
      (k := fun fit => do
        if fit then return some bp
        else if (← getSizeLogged h (headerP bp)) ≠ 0 then nextFitToEpilogueLogged h adjSize fuel bp
        else return none) h bp (fun size => adjSize < size) (by
      intro size fit hsize
      cases fit with
      | true => exact pure _
      | false =>
        have hagain := (getSize h (headerP bp)).bind (f := fun size => if size ≠ 0 then
          nextFitToEpilogueLogged h adjSize fuel bp else Pure.pure none) (g := fun size => if size ≠ 0 then
          NextFitHeap.nextFitToEpilogue h adjSize fuel bp else some none) (by
          intro size
          split
          · exact ih bp
          · exact pure none)
        rw [hsize] at hagain
        exact hagain))
    simp only [Bool.and_eq_true, decide_eq_true_eq] at hstep
    exact hstep

theorem nextFitToLast (h : Heap) (adjSize : ℕ) : ∀ fuel bp,
    Erases (nextFitToLastLogged h adjSize fuel bp) (nextFitToLast h adjSize fuel bp) := by
  intro fuel
  induction fuel with
  | zero => exact fun bp s => rfl
  | succ fuel ih =>
    intro bp
    unfold nextFitToLastLogged NextFitHeap.nextFitToLast
    split
    · have hstep := (nextBlockBp h bp).bind fun bp => visit bp (freeAnd (o := fun _ fit =>
        if fit then some (some bp) else NextFitHeap.nextFitToLast h adjSize fuel bp)
        (k := fun fit => do
          if fit then return some bp else nextFitToLastLogged h adjSize fuel bp)
        h bp (fun size => adjSize ≤ size) (by
        intro size fit _
        cases fit with
        | true => exact pure _
        | false => exact ih bp))
      simp only [Bool.and_eq_true, decide_eq_true_eq] at hstep
      exact hstep
    · exact pure none

theorem nextFit (h : Heap) (adjSize : ℕ) :
    Erases (nextFitLogged h adjSize) (nextFit h adjSize) := by
  refine (nextFitToEpilogue h adjSize walkFuel h.lastBp).bind fun found => ?_
  cases found with
  | some bp => exact pure _
  | none =>
    refine (nextFitToLast h adjSize walkFuel h.startBp).bind fun found => ?_
    cases found with
    | some bp => exact pure _
    | none => exact pure _

end Erases

/-- From `s` to `s'` the run came from `bp` to the blocks `vs`, and what it read
are headers of these blocks. -/
structure Walked (s s' : Log) (bp : ℕ) (vs : List ℕ) : Prop where
  visits : s'.visits = s.visits ++ vs
  reads : ∃ rs, s'.reads = s.reads ++ rs ∧ ∀ r ∈ rs, ∃ v ∈ bp :: vs, r = headerP v

namespace Walked

variable {s s₁ s₂ : Log} {a bp v : ℕ} {vs ws : List ℕ}

theorem refl (s : Log) (bp : ℕ) : Walked s s bp [] :=
  ⟨(List.append_nil _).symm, [], (List.append_nil _).symm, by simp⟩

theorem read (hw : Walked s s₁ bp vs) (hv : v ∈ bp :: vs) :
    Walked s (s₁.read (headerP v)) bp vs := by
  obtain ⟨rs, hrs, hall⟩ := hw.reads
  refine ⟨hw.visits, rs ++ [headerP v], ?_, ?_⟩
  · simp only [Log.read, hrs, List.append_assoc]
  · intro r hr
    rcases List.mem_append.mp hr with hr | hr
    · exact hall r hr
    · exact ⟨v, hv, List.mem_singleton.mp hr⟩

theorem visit (hw : Walked s s₁ bp vs) (v : ℕ) : Walked s (s₁.visit v) bp (vs ++ [v]) := by
  obtain ⟨rs, hrs, hall⟩ := hw.reads
  refine ⟨?_, rs, hrs, ?_⟩
  · simp only [Log.visit, hw.visits, List.append_assoc]
  · intro r hr
    obtain ⟨w, hw, hr⟩ := hall r hr
    exact ⟨w, by simp only [List.mem_cons, List.mem_append] at hw ⊢; tauto, hr⟩

/-- One walk after another, which starts at a block that has been visited. -/
theorem trans (h₁ : Walked s s₁ bp vs) (h₂ : Walked s₁ s₂ a ws) (ha : a ∈ bp :: vs) :
    Walked s s₂ bp (vs ++ ws) := by
  obtain ⟨rs, hrs, hall⟩ := h₁.reads
  obtain ⟨ts, hts, hall'⟩ := h₂.reads
  refine ⟨by rw [h₂.visits, h₁.visits, List.append_assoc], rs ++ ts,
    by rw [hts, hrs, List.append_assoc], ?_⟩
  intro r hr
  rcases List.mem_append.mp hr with hr | hr
  · obtain ⟨v, hv, hr⟩ := hall r hr
    exact ⟨v, by simp only [List.mem_cons, List.mem_append] at hv ⊢; tauto, hr⟩
  · obtain ⟨v, hv, hr⟩ := hall' r hr
    rcases List.mem_cons.mp hv with rfl | hv
    · exact ⟨v, by simp only [List.mem_cons, List.mem_append] at ha ⊢; tauto, hr⟩
    · exact ⟨v, by simp [hv], hr⟩

end Walked

section Loops

variable {h : Heap} {l l₁ l₂ : List Block} {a : ℕ}

theorem freeAnd_run {w : ℕ} (hw : h.get (headerP a) = some w) (p : ℕ → Bool) (s : Log) :
    ∃ fit s', (freeAnd h a p).run s = some (fit, s') ∧ Walked s s' a [] := by
  have hread := (Walked.refl s a).read (List.mem_cons_self ..)
  by_cases halloc : w % 2 = 0
  · refine ⟨p (w &&& notSeven), _, ?_, hread.read (List.mem_cons_self ..)⟩
    simp [freeAnd, isItAllocLogged, getSizeLogged, hw, halloc]
  · refine ⟨false, _, ?_, hread⟩
    simp [freeAnd, isItAllocLogged, hw, halloc]

/-- `NEXT_BLOCK_BP(bp)` and the fit test of the block it comes to. -/
theorem advance_run (hl : Laid h l) {b : Block} (hc : Cut h l a l₁ (b :: l₂)) (p : ℕ → Bool)
    (s : Log) : ∃ fit s', Walked s s' a [a + b.size] ∧
      ∀ {β : Type} (k : ℕ → Bool → Logged β),
        (do let bp ← nextBlockBpLogged h a
            visit bp
            let fit ← freeAnd h bp p
            k bp fit : Logged β).run s = (k (a + b.size) fit).run s' := by
  have hnext : add32 a (nextTag (b :: l₂) &&& notSeven) = a + b.size := by
    have hbp := hl.nextBlockBp_eq hc
    simpa [nextBlockBp, getSize, hl.get_boundary hc] using hbp
  obtain ⟨fit, s', hrun, hw⟩ := freeAnd_run (hl.get_boundary hc.next) p
    ((s.read (headerP a)).visit (a + b.size))
  refine ⟨fit, s', ?_, ?_⟩
  · have hfirst := ((Walked.refl s a).read (List.mem_cons_self ..)).visit (a + b.size)
    exact hfirst.trans hw (by simp)
  · intro β k
    simp [nextBlockBpLogged, getSizeLogged, hl.get_boundary hc, hnext, hrun]

/-- The first loop ends; it comes to blocks behind `a` in order, perhaps to the epilogue. -/
theorem nextFitToEpilogueLogged_run (adjSize : ℕ) (hl : Laid h l) (l₂ : List Block) :
    ∀ (l₁ : List Block) (a fuel : ℕ) (b : Block) (s : Log), Cut h l a l₁ (b :: l₂) →
      l₂.length < fuel →
      ∃ r s' vs, (nextFitToEpilogueLogged h adjSize fuel a).run s = some (r, s') ∧
        Walked s s' a vs ∧ vs <+: (placed (a + b.size) l₂).map Prod.fst ++ [h.memBrk] := by
  induction l₂ with
  | nil =>
    intro l₁ a fuel b s hc hfuel
    obtain ⟨fuel, rfl⟩ := Nat.exists_eq_succ_of_ne_zero (Nat.ne_of_gt hfuel)
    obtain ⟨fit, s₁, hw, hrun⟩ := advance_run hl hc (fun size => adjSize < size) s
    have hend := (hl.bounds hc.next).2.1
    rw [span_nil, Nat.add_zero] at hend
    unfold nextFitToEpilogueLogged
    rw [hrun]
    cases fit with
    | true => exact ⟨_, s₁, _, rfl, hw, by simp [hend]⟩
    | false =>
      refine ⟨none, _, _, ?_, hw.read (v := a + b.size) (by simp), by simp [hend]⟩
      simp [getSizeLogged, hl.get_boundary hc.next, nextTag, show 1 &&& notSeven = 0 by rfl]
  | cons n r ih =>
    intro l₁ a fuel b s hc hfuel
    obtain ⟨fuel, rfl⟩ := Nat.exists_eq_succ_of_ne_zero (show fuel ≠ 0 by omega)
    obtain ⟨fit, s₁, hw, hrun⟩ := advance_run hl hc (fun size => adjSize < size) s
    unfold nextFitToEpilogueLogged
    rw [hrun]
    cases fit with
    | true => exact ⟨_, s₁, _, rfl, hw, by simp⟩
    | false =>
      have hpos := n.size_pos
      have htag := tag_size_bits (hl.tag_lt hc.next)
      obtain ⟨res, s₂, vs, hrec, hw₂, hvs⟩ := ih _ _ fuel n (s₁.read (headerP (a + b.size))) hc.next
        (by simp only [List.length_cons] at hfuel; omega)
      refine ⟨res, s₂, (a + b.size) :: vs, ?_, ?_, ?_⟩
      · simp [getSizeLogged, hl.get_boundary hc.next, nextTag, htag, hrec, Nat.ne_of_gt hpos]
      · exact (hw.read (v := a + b.size) (by simp)).trans hw₂ (by simp)
      · simpa using hvs

/-- The second loop ends; it comes to the blocks up to `last_bp` in order. -/
theorem nextFitToLastLogged_run (adjSize : ℕ) (hl : Laid h l) {c : Block} {r : List Block}
    (k : List Block) :
    ∀ (l₁ : List Block) (a fuel : ℕ) (s : Log), Cut h l a l₁ (k ++ c :: r) →
      h.lastBp = a + span k → k.length < fuel →
      ∃ res s' vs, (nextFitToLastLogged h adjSize fuel a).run s = some (res, s') ∧
        Walked s s' a vs ∧ vs <+: (placed a (k ++ [c])).tail.map Prod.fst := by
  induction k with
  | nil =>
    intro l₁ a fuel s hc hlast hfuel
    obtain ⟨fuel, rfl⟩ := Nat.exists_eq_succ_of_ne_zero (Nat.ne_of_gt hfuel)
    refine ⟨none, s, [], ?_, Walked.refl s a, List.nil_prefix⟩
    simp [nextFitToLastLogged, hlast]
  | cons b k ih =>
    intro l₁ a fuel s hc hlast hfuel
    obtain ⟨fuel, rfl⟩ := Nat.exists_eq_succ_of_ne_zero (show fuel ≠ 0 by omega)
    have hpos := b.size_pos
    rw [span_cons] at hlast
    have hplaced : (placed a (b :: k ++ [c])).tail.map Prod.fst =
        (a + b.size) :: (placed (a + b.size) (k ++ [c])).tail.map Prod.fst := by
      cases k <;> simp
    obtain ⟨fit, s₁, hw, hrun⟩ := advance_run hl hc (fun size => adjSize ≤ size) s
    unfold nextFitToLastLogged
    rw [if_pos (show a < h.lastBp by omega), hrun, hplaced]
    cases fit with
    | true => exact ⟨_, s₁, _, rfl, hw, by simp⟩
    | false =>
      obtain ⟨res, s₂, vs, hrec, hw₂, hvs⟩ := ih _ _ fuel s₁ hc.next (by omega)
        (by simp only [List.length_cons] at hfuel; omega)
      exact ⟨res, s₂, (a + b.size) :: vs, hrec, hw.trans hw₂ (by simp), by simpa using hvs⟩

theorem mem_addresses {xs : List (ℕ × Block)} {p : ℕ × Block → Bool} {v : ℕ} :
    v ∈ (xs.filter p).map Prod.fst ↔ ∃ b, (v, b) ∈ xs ∧ p (v, b) = true := by
  simp

/-- No block lies both behind `last_bp` and up to it, and the epilogue behind all. -/
theorem visits_nodup (hl : Laid h l) {vs ws : List ℕ}
    (hvs : vs <+: ((placed (h.startBp + 8) l).filter (fun x => h.lastBp < x.1)).map Prod.fst ++
      [h.memBrk])
    (hws : ws <+: ((placed (h.startBp + 8) l).filter (fun x => x.1 ≤ h.lastBp)).map Prod.fst) :
    (vs ++ ws).Nodup ∧
      ∀ v ∈ vs ++ ws, (∃ b, (v, b) ∈ placed (h.startBp + 8) l) ∨ v = h.memBrk := by
  have hbrk := hl.brk_eq
  rw [span_cons, prologue_size, ← Nat.add_assoc] at hbrk
  have hnodup : ((placed (h.startBp + 8) l).map Prod.fst).Nodup :=
    (placed_sorted _ _).imp Nat.ne_of_lt
  have hend : ∀ {v b}, (v, b) ∈ placed (h.startBp + 8) l → v < h.memBrk := by
    intro v b hb
    have hlt := placed_address_lt hb
    simp only at hlt
    omega
  have hmem : ∀ v ∈ vs, (h.lastBp < v ∧ ∃ b, (v, b) ∈ placed (h.startBp + 8) l) ∨ v = h.memBrk := by
    intro v hv
    rcases List.mem_append.mp (hvs.subset hv) with hv' | hv'
    · obtain ⟨b, hb, hlt⟩ := mem_addresses.mp hv'
      exact Or.inl ⟨of_decide_eq_true hlt, b, hb⟩
    · exact Or.inr (List.mem_singleton.mp hv')
  have hmem' : ∀ w ∈ ws, w ≤ h.lastBp ∧ ∃ b, (w, b) ∈ placed (h.startBp + 8) l := by
    intro w hw
    obtain ⟨b, hb, hle⟩ := mem_addresses.mp (hws.subset hw)
    exact ⟨of_decide_eq_true hle, b, hb⟩
  refine ⟨List.nodup_append.mpr ⟨?_, ?_, ?_⟩, ?_⟩
  · refine List.Nodup.sublist hvs.sublist
      (List.nodup_append.mpr ⟨?_, List.nodup_singleton _, ?_⟩)
    · exact hnodup.sublist (List.filter_sublist.map _)
    · intro v hv w hw
      obtain ⟨b, hb, -⟩ := mem_addresses.mp hv
      rw [List.mem_singleton.mp hw]
      exact (hend hb).ne
  · exact (hnodup.sublist (List.filter_sublist.map _)).sublist hws.sublist
  · intro v hv w hw
    obtain ⟨hle, b, hb⟩ := hmem' w hw
    have hlt := hend hb
    rcases hmem v hv with ⟨hgt, -⟩ | rfl
    · omega
    · omega
  · intro v hv
    rcases List.mem_append.mp hv with hv | hv
    · exact (hmem v hv).imp_left And.right
    · exact Or.inl (hmem' v hv).2

/-- Both loops end. The first comes to blocks behind `last_bp` in order, the
second to blocks up to it. -/
theorem nextFitLogged_run (adjSize : ℕ) (hl : Laid h l) (hrover : OnBoundary h l h.lastBp) :
    ∃ x s vs ws, (nextFitLogged h adjSize).run {} = some (x, s) ∧ s.visits = vs ++ ws ∧
      vs <+: ((placed (h.startBp + 8) l).filter (fun x => h.lastBp < x.1)).map Prod.fst ++
        [h.memBrk] ∧
      ws <+: ((placed (h.startBp + 8) l).filter (fun x => x.1 ≤ h.lastBp)).map Prod.fst ∧
      ∀ p ∈ s.reads, ∃ v, v ∈ h.lastBp :: h.startBp :: s.visits ∧ p = headerP v := by
  obtain ⟨c, hmem⟩ := hrover
  obtain ⟨k, r, hc⟩ := Cut.of_placed hmem
  obtain ⟨hk, hr⟩ := length_lt_walkFuel hl hc.split
  obtain ⟨hbehind, hupto⟩ := placed_filter_last hc
  obtain ⟨res, s₁, vs, hrun, hw, hvs⟩ := nextFitToEpilogueLogged_run adjSize hl r k h.lastBp
    walkFuel c {} hc (by simp only [List.length_cons] at hr; omega)
  rw [hbehind, hupto]
  cases res with
  | some bp =>
    obtain ⟨rs, hrs, hall⟩ := hw.reads
    refine ⟨({ h with lastBp := bp }, bp), s₁, vs, [], by simp [nextFitLogged, hrun],
      by simp [hw.visits], hvs,
      List.nil_prefix, ?_⟩
    intro p hp
    rw [hrs, List.nil_append] at hp
    obtain ⟨v, hv, hpv⟩ := hall p hp
    exact ⟨v, by rw [hw.visits]; simp only [List.mem_cons, List.nil_append] at hv ⊢; tauto, hpv⟩
  | none =>
    obtain ⟨res, s₂, ws, hrun₂, hw₂, hws⟩ := nextFitToLastLogged_run adjSize hl k [] h.startBp
      walkFuel s₁ ⟨hc.split, rfl⟩ hc.addr hk
    obtain ⟨rs, hrs, hall⟩ := hw.reads
    obtain ⟨ts, hts, hall₂⟩ := hw₂.reads
    refine ⟨match res with
      | some bp => ({ h with lastBp := bp }, bp)
      | none => (h, null), s₂, vs, ws, ?_, by simp [hw.visits, hw₂.visits], hvs, hws, ?_⟩
    · cases res <;> simp [nextFitLogged, hrun, hrun₂]
    · intro p hp
      rw [hts, hrs, List.nil_append, List.mem_append] at hp
      rw [hw₂.visits, hw.visits]
      rcases hp with hp | hp
      · obtain ⟨v, hv, hpv⟩ := hall p hp
        exact ⟨v, by simp only [List.mem_cons, List.nil_append, List.mem_append] at hv ⊢; tauto, hpv⟩
      · obtain ⟨v, hv, hpv⟩ := hall₂ p hp
        exact ⟨v, by simp only [List.mem_cons, List.nil_append, List.mem_append] at hv ⊢; tauto, hpv⟩

/-- `next_fit` ends for every size asked for; it comes to no block twice, reads
headers only, returns a fitting free block or NULL, and changes nothing but `last_bp`. -/
theorem next_fit_sound (adjSize : ℕ) (hl : Laid h l) (hrover : OnBoundary h l h.lastBp) :
    ∃ h' bp s, (nextFitLogged h adjSize).run {} = some ((h', bp), s) ∧
      nextFit h adjSize = some (h', bp) ∧
      s.visits.Nodup ∧
      (∀ v ∈ s.visits, (∃ b, (v, b) ∈ placed (h.startBp + 8) l) ∨ v = h.memBrk) ∧
      (∀ p ∈ s.reads, ∃ v, (OnBoundary h l v ∨ v = h.memBrk) ∧ p = headerP v) ∧
      (bp ≠ null → ∃ b, (bp, b) ∈ placed (h.startBp + 8) l ∧ b.alloc = false ∧
        adjSize ≤ b.size) ∧
      h' = { h with lastBp := if bp = null then h.lastBp else bp } := by
  obtain ⟨⟨h', bp⟩, s, vs, ws, hrun, hvisits, hvs, hws, hreads⟩ :=
    nextFitLogged_run adjSize hl hrover
  obtain ⟨hnodup, hblocks⟩ := visits_nodup hl hvs hws
  have hcall := Erases.nextFit h adjSize {}
  rw [hrun, Option.map_some, eq_comm] at hcall
  have heq := nextFit_eq adjSize hl hrover
  rw [hcall, Option.some.injEq] at heq
  refine ⟨h', bp, s, hrun, hcall, hvisits ▸ hnodup, hvisits ▸ hblocks, ?_, ?_, ?_⟩
  · intro p hp
    obtain ⟨v, hv, hpv⟩ := hreads p hp
    refine ⟨v, ?_, hpv⟩
    rcases List.mem_cons.mp hv with rfl | hv
    · exact Or.inl hrover
    rcases List.mem_cons.mp hv with rfl | hv
    · exact Or.inl ⟨prologue, by simp⟩
    · rw [hvisits] at hv
      exact (hblocks v hv).imp_left fun ⟨b, hb⟩ => ⟨b, List.mem_cons_of_mem _ hb⟩
  · intro hne
    cases hx : chosen h l adjSize with
    | none =>
      rw [hx, Prod.mk.injEq] at heq
      exact absurd heq.2 hne
    | some x =>
      rw [hx, Prod.mk.injEq] at heq
      obtain ⟨hin, hfree, hfit⟩ := chosen_spec (q := x.1) (b := x.2) hx
      exact ⟨x.2, heq.2 ▸ hin, hfree, hfit⟩
  · cases hx : chosen h l adjSize with
    | none =>
      rw [hx, Prod.mk.injEq] at heq
      rw [heq.1, if_pos heq.2]
    | some x =>
      rw [hx, Prod.mk.injEq] at heq
      obtain ⟨hin, -, -⟩ := chosen_spec (q := x.1) (b := x.2) hx
      have hlo := (placed_bounds hin).1
      rw [heq.1, heq.2, if_neg (by simp only [null]; omega)]

end Loops

/-- Behind the gap, which is `last_bp`, a live block is passed and the rest of the heap
found. -/
theorem next_fit_sound_gap : ∃ s,
    (nextFitLogged gapClient.heap 16).run {} =
      some (({ gapClient.heap with lastBp := 4160 }, 4160), s) ∧
      s.visits.Nodup ∧ ∃ l b, (4160, b) ∈ placed (gapClient.heap.startBp + 8) l ∧
        b.alloc = false ∧ 16 ≤ b.size := by
  obtain ⟨l, hc⟩ := reachable_consistent gapClient_reachable
  obtain ⟨h', bp, s, hrun, hcall, hnodup, -, -, hfound, hheap⟩ :=
    next_fit_sound 16 hc.wellFormed.toLaid hc.wellFormed.rover
  have hbp : (nextFit gapClient.heap 16).map Prod.snd = some 4160 := by decide
  obtain rfl : bp = 4160 := by
    rw [hcall] at hbp
    exact Option.some.inj hbp
  obtain ⟨b, hb⟩ := hfound (by decide)
  rw [hheap] at hrun
  exact ⟨s, hrun, hnodup, l, b, hb⟩

end SystemSoftware.NextFitTrace
