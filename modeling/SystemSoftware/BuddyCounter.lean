import SystemSoftware.BuddyRuns
import Mathlib.Algebra.BigOperators.Group.List.Basic

/-!
The counter of free pages over a run. An allocation takes the pages of its block
off `free_phy_page_n` twice, once before the block is split and once after, and a
free puts nothing back, so the first allocation already leaves the counter wrong.
The asserts are left out, and frees may merge by any bits.
-/
namespace SystemSoftware.BuddyCounter

open ByteMemory BuddyPages BuddyPieces BuddyRuns Transitions

/-- A run of the allocator: the live blocks with the orders they were allocated with,
the calls of `mm_malloc` so far, and whether one of them made the counter larger. -/
structure Meter where
  pages : Pages
  live : List (ℕ × ℕ)
  mallocs : ℕ
  wrapped : Bool

inductive Step : Meter → Call → Meter → Prop
  | malloc {m : Meter} {s' : Pages} {size p order : ℕ} (hsize : size ≤ 2 ^ 23)
      (horder : memsizeToOrder size = some order) (hcall : mmMalloc m.pages size = some (s', p))
      (hp : p ≠ null) :
      Step m (.malloc size) ⟨s', (p, order) :: m.live, m.mallocs + 1,
        m.wrapped || decide (m.pages.freePhyPageN < s'.freePhyPageN)⟩
  | refused {m : Meter} {s' : Pages} {size : ℕ} (hsize : size ≤ 2 ^ 23)
      (hcall : mmMalloc m.pages size = some (s', null)) :
      Step m (.malloc size) ⟨s', m.live, m.mallocs + 1,
        m.wrapped || decide (m.pages.freePhyPageN < s'.freePhyPageN)⟩
  | free {m : Meter} {s' : Pages} {p order : ℕ} (hp : (p, order) ∈ m.live)
      (hcall : mmFree m.pages p = some s') :
      Step m (.free p) ⟨s', m.live.erase (p, order), m.mallocs, m.wrapped⟩

def meters : System Meter Call :=
  ⟨fun m => Started ⟨m.pages, []⟩ ∧ m.live = [] ∧ m.mallocs = 0 ∧ m.wrapped = false, Step⟩

def livePages (m : Meter) : ℕ := (m.live.map (fun b => 2 ^ b.2)).sum

def Accurate (m : Meter) : Prop :=
  m.pages.freePhyPageN + livePages m = phyPageN ∧ m.wrapped = false

section Counter

variable {s s' : Pages}

theorem listAdd_counter {head new : ListHead} (h : listAdd s head new = some s') :
    s'.freePhyPageN = s.freePhyPageN := by
  obtain ⟨next, -, h⟩ := Option.bind_eq_some_iff.mp h
  obtain rfl := Option.some.inj h
  rfl

theorem listDel_counter {l : ListHead} (h : listDel s l = some s') :
    s'.freePhyPageN = s.freePhyPageN := by
  obtain ⟨prev, -, h⟩ := Option.bind_eq_some_iff.mp h
  obtain ⟨next, -, h⟩ := Option.bind_eq_some_iff.mp h
  obtain rfl := Option.some.inj h
  rfl

theorem listDelCopy_counter {l : ListHead} (h : listDelCopy s l = some s') :
    s'.freePhyPageN = s.freePhyPageN := by
  obtain ⟨prev, -, h⟩ := Option.bind_eq_some_iff.mp h
  obtain ⟨next, -, h⟩ := Option.bind_eq_some_iff.mp h
  obtain rfl := Option.some.inj h
  rfl

theorem markUsed_counter {index order : ℕ} (h : markUsed s index order = some s') :
    s'.freePhyPageN = s.freePhyPageN := by
  obtain ⟨bitmap, -, h⟩ := Option.bind_eq_some_iff.mp h
  obtain rfl := Option.some.inj h
  rfl

theorem expand_counter (lowOrder n : ℕ) : ∀ {s page pageN s' page'},
    expand s page pageN lowOrder n = some (s', page') → s'.freePhyPageN = s.freePhyPageN := by
  induction n with
  | zero =>
    intro s page pageN s' page' h
    obtain ⟨rfl, -⟩ := Prod.mk.inj (Option.some.inj h)
    rfl
  | succ n ih =>
    intro s page pageN s' page' h
    obtain ⟨head, -, h⟩ := Option.bind_eq_some_iff.mp h
    obtain ⟨s₁, hadd, h⟩ := Option.bind_eq_some_iff.mp h
    obtain ⟨s₂, hmark, h⟩ := Option.bind_eq_some_iff.mp h
    rw [ih h, markUsed_counter hmark, listAdd_counter hadd]

/-- The block that is handed out is taken off twice, whatever block it is cut from. -/
theorem allocFrom_counter {order currOrder p : ℕ}
    (h : allocFrom s order currOrder = some (some (s', p))) :
    s'.freePhyPageN = sub32 (sub32 s.freePhyPageN (2 ^ order)) (2 ^ order) := by
  obtain ⟨head, -, h⟩ := Option.bind_eq_some_iff.mp h
  obtain ⟨curr, -, h⟩ := Option.bind_eq_some_iff.mp h
  split at h
  · cases curr with
    | area k => cases h
    | page page =>
      obtain ⟨s₁, hdel, h⟩ := Option.bind_eq_some_iff.mp h
      have hcut : ∀ (s₂ s₃ : Pages) page', s₂.freePhyPageN = s₁.freePhyPageN →
          expand { s₂ with freePhyPageN := sub32 s₂.freePhyPageN (1 <<< order) } page
            (getPageN s₁ (physicalAddr s₁ page)) order (currOrder - order) = some (s₃, page') →
          sub32 s₃.freePhyPageN (1 <<< order) =
            sub32 (sub32 s.freePhyPageN (2 ^ order)) (2 ^ order) := by
        intro s₂ s₃ page' hs₂ hexp
        rw [expand_counter _ _ hexp, hs₂, listDel_counter hdel, Nat.one_shiftLeft]
      by_cases htop : currOrder ≠ maxOrder - 1
      · simp only [if_pos htop] at h
        obtain ⟨s₂, hmark, h⟩ := Option.bind_eq_some_iff.mp h
        obtain ⟨⟨s₃, page'⟩, hexp, h⟩ := Option.bind_eq_some_iff.mp h
        obtain ⟨rfl, -⟩ := Prod.mk.inj (Option.some.inj (Option.some.inj h))
        exact hcut s₂ s₃ page' (markUsed_counter hmark) hexp
      · simp only [if_neg htop] at h
        obtain ⟨s₂, hs₂, h⟩ := Option.bind_eq_some_iff.mp h
        obtain rfl := Option.some.inj hs₂
        obtain ⟨⟨s₃, page'⟩, hexp, h⟩ := Option.bind_eq_some_iff.mp h
        obtain ⟨rfl, -⟩ := Prod.mk.inj (Option.some.inj (Option.some.inj h))
        exact hcut s₁ s₃ page' rfl hexp
  · cases h

theorem allocLoop_counter (order rounds : ℕ) : ∀ {currOrder p},
    allocLoop s order rounds currOrder = some (s', p) →
    (p = null ∧ s' = s) ∨
      s'.freePhyPageN = sub32 (sub32 s.freePhyPageN (2 ^ order)) (2 ^ order) := by
  induction rounds with
  | zero =>
    intro currOrder p h
    obtain ⟨rfl, rfl⟩ := Prod.mk.inj (Option.some.inj h)
    exact Or.inl ⟨rfl, rfl⟩
  | succ rounds ih =>
    intro currOrder p h
    obtain ⟨r, hfrom, h⟩ := Option.bind_eq_some_iff.mp h
    cases r with
    | none => exact ih h
    | some r =>
      obtain rfl := Option.some.inj h
      exact Or.inr (allocFrom_counter hfrom)

/-- A call of `mm_malloc` takes the pages of its block off twice, or leaves all as it is. -/
theorem malloc_counter {size p : ℕ} (hsize : size ≤ 2 ^ 23)
    (h : mmMalloc s size = some (s', p)) :
    ∃ order < maxOrder, memsizeToOrder size = some order ∧ ((p = null ∧ s' = s) ∨
      s'.freePhyPageN = sub32 (sub32 s.freePhyPageN (2 ^ order)) (2 ^ order)) := by
  obtain ⟨order, horder, hlt⟩ := memsizeToOrder_spec hsize
  rw [mmMalloc_eq horder hlt] at h
  exact ⟨order, hlt, horder, allocLoop_counter order _ h⟩

theorem mergeLoop_counter (rounds : ℕ) : ∀ {s order pageN bitIndex r},
    mergeLoop s rounds order pageN bitIndex = some r → r.1.freePhyPageN = s.freePhyPageN := by
  induction rounds with
  | zero =>
    intro s order pageN bitIndex r h
    obtain rfl := Option.some.inj h
    rfl
  | succ rounds ih =>
    intro s order pageN bitIndex r h
    obtain ⟨bitmap, -, h⟩ := Option.bind_eq_some_iff.mp h
    dsimp only at h
    split at h
    · obtain rfl := Option.some.inj h
      rfl
    · obtain ⟨s₁, hdel, h⟩ := Option.bind_eq_some_iff.mp h
      rw [ih h, listDelCopy_counter hdel]

/-- `mm_free` leaves the counter alone. -/
theorem free_counter {p : ℕ} (h : mmFree s p = some s') : s'.freePhyPageN = s.freePhyPageN := by
  obtain ⟨r, hmerge, h⟩ := Option.bind_eq_some_iff.mp h
  obtain ⟨head, -, h⟩ := Option.bind_eq_some_iff.mp h
  rw [listAdd_counter h, mergeLoop_counter _ hmerge]

end Counter

/-- Before the first allocation the allocator is as `mm_init` leaves it. After it the counter,
as long as it does not wrap, is short of twice the pages that were ever handed out, and those
are some and at least the live ones. -/
def Metered (m : Meter) : Prop :=
  (m.mallocs = 0 ∧ Started ⟨m.pages, []⟩ ∧ m.live = []) ∨
    (m.mallocs ≠ 0 ∧ (m.wrapped = false →
      ∃ given, 0 < given ∧ livePages m ≤ given ∧ m.pages.freePhyPageN + 2 * given = phyPageN))

theorem initBuddy_counter {s s' : Pages} (h : initBuddy s = some s') :
    s'.freePhyPageN = s.freePhyPageN := by
  obtain ⟨links, heq, -⟩ := initBuddy_spec s
  obtain rfl := Option.some.inj (heq.symm.trans h)
  rfl

theorem started_counter {c : Client} (hc : Started c) : c.pages.freePhyPageN = phyPageN := by
  obtain ⟨-, s, memStartBrk, -, hinit⟩ := hc
  exact initBuddy_counter hinit

/-- The first allocation succeeds. -/
theorem started_malloc {c : Client} {s' : Pages} {size p : ℕ} (hc : Started c)
    (hsize : size ≤ 2 ^ 23) (hcall : mmMalloc c.pages size = some (s', p)) : p ≠ null := by
  obtain ⟨o, -, ho, hcase⟩ :=
    mmMalloc_spec rider_bits (consistent_started hc).holds.pieces hsize
  rcases hcase with ⟨-, hall⟩ | ⟨k, n, r, s₁, F', q, heq, -, -, -, -, hout⟩
  · have h15 := hall 15 (Nat.le_of_lt_succ ho) (by decide)
    cases h15
  · rw [hcall] at heq
    obtain ⟨-, rfl⟩ := Prod.mk.inj (Option.some.inj heq)
    exact hout.addr_ne_null

/-- Two subtractions that do not make the counter larger do not wrap. -/
theorem sub32_twice {n x : ℕ} (hpos : 0 < x) (hx : x ≤ 2 ^ 15) (hn : n ≤ 2 ^ 16)
    (hle : sub32 (sub32 n x) x ≤ n) : sub32 (sub32 n x) x + 2 * x = n := by
  unfold sub32 at hle ⊢
  omega

theorem block_bounds {order : ℕ} (h : order < maxOrder) : 0 < 2 ^ order ∧ 2 ^ order ≤ 2 ^ 15 :=
  ⟨Nat.two_pow_pos order, Nat.pow_le_pow_right (by norm_num) (Nat.le_of_lt_succ h)⟩

theorem metered_step {m m' : Meter} {a : Call} (hm : Metered m) (hstep : Step m a m') :
    Metered m' := by
  cases hstep with
  | @malloc s' size p order hsize horder hcall hp =>
    obtain ⟨order', hlt, horder', hcase⟩ := malloc_counter hsize hcall
    obtain rfl : order = order' := Option.some.inj (horder.symm.trans horder')
    have hcount := hcase.resolve_left fun h => hp h.1
    obtain ⟨hpos, hle⟩ := block_bounds hlt
    refine Or.inr ⟨Nat.succ_ne_zero _, fun hwrap => ?_⟩
    obtain ⟨hwrap, hgrow⟩ := Bool.or_eq_false_iff.mp hwrap
    have hdown := Nat.le_of_not_lt (of_decide_eq_false hgrow)
    simp only [livePages, List.map_cons, List.sum_cons]
    rcases hm with ⟨-, hstart, hlive⟩ | ⟨-, hm⟩
    · have hfull : m.pages.freePhyPageN = phyPageN := started_counter hstart
      rw [hcount] at hdown ⊢
      have hsub := sub32_twice hpos hle (Nat.le_of_eq hfull) hdown
      exact ⟨2 ^ order, hpos, by rw [hlive]; rfl, hfull ▸ hsub⟩
    · obtain ⟨given, hgiven, hlive, hfull⟩ := hm hwrap
      rw [hcount] at hdown ⊢
      have hn : m.pages.freePhyPageN ≤ 2 ^ 16 := Nat.le.intro hfull
      have hsub := sub32_twice hpos hle hn hdown
      rw [livePages] at hlive
      exact ⟨2 ^ order + given, by omega, by omega, by omega⟩
  | refused hsize hcall =>
    obtain ⟨order, hlt, -, hcase⟩ := malloc_counter hsize hcall
    obtain ⟨hpos, hle⟩ := block_bounds hlt
    refine Or.inr ⟨Nat.succ_ne_zero _, fun hwrap => ?_⟩
    obtain ⟨hwrap, hgrow⟩ := Bool.or_eq_false_iff.mp hwrap
    have hdown := Nat.le_of_not_lt (of_decide_eq_false hgrow)
    rcases hm with ⟨-, hstart, -⟩ | ⟨-, hm⟩
    · exact absurd rfl (started_malloc hstart hsize hcall)
    · obtain ⟨given, hgiven, hlive, hfull⟩ := hm hwrap
      rcases hcase with ⟨-, rfl⟩ | hcount
      · exact ⟨given, hgiven, hlive, hfull⟩
      · rw [hcount] at hdown ⊢
        have hn : m.pages.freePhyPageN ≤ 2 ^ 16 := Nat.le.intro hfull
        have hsub := sub32_twice hpos hle hn hdown
        exact ⟨2 ^ order + given, by omega, hlive.trans (Nat.le_add_left ..), by omega⟩
  | @free s' p order hp hcall =>
    rcases hm with ⟨-, -, hlive⟩ | ⟨hmallocs, hm⟩
    · rw [hlive] at hp
      cases hp
    · refine Or.inr ⟨hmallocs, fun hwrap => ?_⟩
      obtain ⟨given, hgiven, hlive, hfull⟩ := hm hwrap
      have hsum := ((List.perm_cons_erase hp).map fun b => 2 ^ b.2).sum_eq
      have hless : ((m.live.erase (p, order)).map (fun b => 2 ^ b.2)).sum ≤ livePages m :=
        (Nat.le_add_left ..).trans_eq hsum.symm
      exact ⟨given, hgiven, hless.trans hlive, by rw [free_counter hcall, hfull]⟩

theorem metered {m : Meter} (hm : meters.Reachable m) : Metered m := by
  apply hm.invariant
  · rintro s ⟨hstart, hlive, hmallocs, -⟩
    exact Or.inl ⟨hmallocs, hstart, hlive⟩
  · exact fun s a s' hs hstep => metered_step hs hstep

/-- The counter is accurate before the first allocation of the run, and in no state after it. -/
theorem counter_accurate_iff {m : Meter} (hm : meters.Reachable m) :
    Accurate m ↔ m.mallocs = 0 := by
  have hwrap : m.mallocs = 0 → m.wrapped = false := by
    apply hm.invariant (I := fun m => m.mallocs = 0 → m.wrapped = false)
    · exact fun s hs _ => hs.2.2.2
    · intro s a s' hs hstep
      cases hstep with
      | malloc => exact fun h => absurd h (Nat.succ_ne_zero _)
      | refused => exact fun h => absurd h (Nat.succ_ne_zero _)
      | free => exact hs
  constructor
  · rintro ⟨hcount, hnowrap⟩
    rcases metered hm with ⟨h, -⟩ | ⟨-, hm⟩
    · exact h
    · obtain ⟨given, hgiven, hlive, hfull⟩ := hm hnowrap
      omega
  · intro hmallocs
    rcases metered hm with ⟨-, hstart, hlive⟩ | ⟨hne, -⟩
    · refine ⟨?_, hwrap hmallocs⟩
      rw [started_counter hstart, livePages, hlive]
      rfl
    · exact absurd hmallocs hne

def startedMeter : Meter := ⟨startedClient.pages, [], 0, false⟩

theorem startedMeter_reachable : meters.Reachable startedMeter :=
  .initial ⟨startedClient_started, rfl, rfl, rfl⟩

def Meter.malloc (m : Meter) (size : ℕ) : Meter :=
  match mmMalloc m.pages size, memsizeToOrder size with
  | some (s, p), some order => ⟨s, if p = null then m.live else (p, order) :: m.live,
      m.mallocs + 1, m.wrapped || decide (m.pages.freePhyPageN < s.freePhyPageN)⟩
  | _, _ => m

theorem reachable_malloc {m : Meter} (hm : meters.Reachable m) {size : ℕ}
    (hsize : size ≤ 2 ^ 23) : meters.Reachable (m.malloc size) := by
  unfold Meter.malloc
  split
  · next s p order hcall horder =>
    split
    · next hp => exact hm.step (.refused hsize (hp ▸ hcall))
    · next hp => exact hm.step (.malloc hsize horder hcall hp)
  · exact hm

def Meter.free (m : Meter) (p order : ℕ) : Meter :=
  match mmFree m.pages p with
  | some s => ⟨s, m.live.erase (p, order), m.mallocs, m.wrapped⟩
  | none => m

theorem reachable_free {m : Meter} (hm : meters.Reachable m) {p order : ℕ}
    (hp : (p, order) ∈ m.live) : meters.Reachable (m.free p order) := by
  unfold Meter.free
  split
  · next s hcall => exact hm.step (.free hp hcall)
  · exact hm

def usedMeter : Meter := ((startedMeter.malloc 1).malloc 600).free 17838024 0

theorem counter_accurate_iff_used : (Accurate usedMeter ↔ usedMeter.mallocs = 0) ∧
    usedMeter.mallocs = 2 ∧ usedMeter.live = [(17836232, 2)] := by
  have hpage := reachable_malloc startedMeter_reachable (by norm_num : 1 ≤ 2 ^ 23)
  have hboth := reachable_malloc hpage (by norm_num : 600 ≤ 2 ^ 23)
  have hreach : meters.Reachable usedMeter := reachable_free hboth (by decide)
  exact ⟨counter_accurate_iff hreach, by decide +kernel, by decide +kernel⟩

/-- One page is allocated, and two are off the counter. The two blocks of order 15 at once
make it wrap. -/
theorem counter_twice :
    (∃ m, meters.Reachable m ∧ livePages m = 1 ∧ m.pages.freePhyPageN = 65534 ∧ ¬ Accurate m) ∧
      ∃ m, meters.Reachable m ∧ livePages m = 65536 ∧ m.pages.freePhyPageN = 2 ^ 32 - 65536 ∧
        m.wrapped = true := by
  have hone : livePages (startedMeter.malloc 1) = 1 := by decide
  have hcount : (startedMeter.malloc 1).pages.freePhyPageN = 65534 := by decide
  refine ⟨⟨_, reachable_malloc startedMeter_reachable (by norm_num), hone, hcount, fun h => ?_⟩,
    _, reachable_malloc (reachable_malloc startedMeter_reachable (le_refl (2 ^ 23))) (le_refl _),
    by decide, by decide, by decide⟩
  rw [Accurate, hone, hcount] at h
  exact absurd h.1 (by decide)

end SystemSoftware.BuddyCounter
