import LampUserspace.Stdlib.HeapRuns

/-! # The heap after everything is freed

A block is never split and the used part of the heap never shrinks. Where the
program has given back all blocks they are joined to one, which may be too small
for a request while the rest of the heap is too small as well; a request for at
most half of the heap is always served.
-/

namespace LampUserspace.Stdlib

open Tiling

variable {area : Area} {h : Heap} {live : ℕ → Option ℕ} {bs : List Block} {size : ℕ}

theorem Tiled.all_free (t : Tiled area h live bs) (hnone : ∀ p, live p = none) :
    ∀ b ∈ bs, b.free = true := by
  intro b hb
  by_contra hused
  obtain ⟨xs, ys, rfl⟩ := List.append_of_mem hb
  obtain ⟨n, hn⟩ := t.lives _ b (mem_payloads_seam.mpr (Or.inr (Or.inl ⟨rfl, rfl⟩)))
    (by simpa using hused)
  rw [hnone] at hn
  cases hn

def Area.used (area : Area) (h : Heap) : ℕ := h.gHeapEnd - area.gHeap

/-- Without live pointers a request is refused if and only if it fits neither into what blocks take
nor into the rest of the heap. -/
theorem Tiled.allocate_drained (t : Tiled area h live bs) (hnone : ∀ p, live p = none) :
    area.allocate size bs = none ↔
      area.used h < header + wantedSize size ∧
        heapSize < area.used h + header + wantedSize size := by
  have hends := t.ends
  rw [Area.allocate, allocate_eq_none, ← hends, Area.used]
  rcases t.separated.all_free (t.all_free hnone) with rfl | ⟨n, rfl⟩
  · rw [stop] at hends
    have h12 : header = 12 := rfl
    simp only [List.not_mem_nil, false_implies, implies_true, true_and]
    omega
  · simp only [stop] at hends
    simp only [List.mem_singleton, forall_eq, true_implies]
    omega

/-- In every state of every run in which the program has given back what it had, a request is
refused only where it fits into neither part of the heap, and never where it is for at most half of
the heap with its header. -/
theorem heap_run_recovers (area : Area) (memory : Memory) (calls : List Call)
    (hcalls : Total.Along (Process.step area) Process.Permitted (Process.start area memory) calls) :
    Total (calls.foldlM (Process.step area) (Process.start area memory)) fun s =>
      (∀ p, s.live p = none) → ∀ size ≤ heapSize,
        Total (malloc area.gHeap s.heap size) fun r =>
          (r.1 = 0 ↔ area.used s.heap < header + wantedSize size ∧
            heapSize < area.used s.heap + header + wantedSize size) ∧
          (size ≤ heapSize / 2 - header → r.1 ≠ 0) := by
  refine (Total.foldlM (fun s call => Process.step_tiled) ⟨[], Process.start_tiled area memory⟩
    hcalls).mono fun s _ ⟨bs, t⟩ hnone size hsize => ?_
  have hrefused : area.allocate size bs = none ↔ _ := t.allocate_drained hnone
  have hhalf : size ≤ heapSize / 2 - header → ¬ (area.used s.heap < header + wantedSize size ∧
      heapSize < area.used s.heap + header + wantedSize size) := by
    intro hle
    have h12 : header = 12 := rfl
    have hheap : heapSize = 262144 := rfl
    have hwanted : wantedSize size ≤ 131060 := by
      unfold wantedSize align4
      split <;> omega
    omega
  cases hserved : area.allocate size bs with
  | none =>
    rw [hserved] at hrefused
    exact ⟨_, malloc_refused t (no_overflow hsize) hserved, iff_of_true rfl (hrefused.mp rfl),
      fun hle => absurd (hrefused.mp rfl) (hhalf hle)⟩
  | some r =>
    rw [hserved] at hrefused
    obtain ⟨h', heq, -, hne, -⟩ := malloc_allocate t (no_overflow hsize) hserved
    refine ⟨_, heq, iff_of_false hne fun hboth => ?_, fun _ => hne⟩
    cases hrefused.mpr hboth

/-- A block is given back, and its place serves a smaller request. -/
def givenBackRun : List Call := [.malloc 8, .free 28]

theorem givenBackRun_recovers :
    Total (givenBackRun.foldlM (Process.step lowArea) (Process.start lowArea fun _ => 0)) fun s =>
      (∀ p, s.live p = none) → ∀ size ≤ heapSize,
        Total (malloc lowArea.gHeap s.heap size) fun r =>
          (r.1 = 0 ↔ lowArea.used s.heap < header + wantedSize size ∧
            heapSize < lowArea.used s.heap + header + wantedSize size) ∧
          (size ≤ heapSize / 2 - header → r.1 ≠ 0) := by
  refine heap_run_recovers lowArea (fun _ => 0) givenBackRun ⟨(by decide : 8 ≤ heapSize), ?_⟩
  intro t ht
  obtain rfl := Option.some.inj (Eq.trans (by rfl) ht)
  exact ⟨Or.inr ⟨8, by rfl⟩, fun _ _ => trivial⟩

end LampUserspace.Stdlib
