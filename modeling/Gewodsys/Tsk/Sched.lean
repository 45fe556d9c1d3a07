import Gewodsys.Lib.Memory
import Gewodsys.Machine.Run

/-!
# The scheduler: `tsk/sched.c`

* `Sched` : the globals of `sched.c`, the memory the `Task` records live in, and CR3;
* `tskCreateTask`, `tskCreateKernelTask`, `tskSchedule`, with the result of `kmalloc` passed in;
* `TskRun` : the scheduler with the tasks created so far; `TskRun.step` runs one call, `KmallocFresh` is what a call
  relies on `kmalloc` for;
* `SchedInv` : the chain of tasks, by position; kept by both calls (`SchedInv.create`, `SchedInv.schedule`);
* `tsk_run_round_robin` : the chain, CR3 and the round-robin order after every run.
-/

namespace Gewodsys.Tsk
open Gewodsys.Machine Gewodsys.Lib

/-! ## `Task` -/

/-- The fields of a `Task`, by their offsets. -/
def taskPid : Nat := 0
def taskName : Nat := 16
def taskEntry : Nat := 24
def taskMemory : Nat := 32
def taskNext : Nat := 64

/-- `sizeof(Task)`. -/
def sizeofTask : Nat := 72

/-- The globals of `sched.c`, the memory, and CR3. -/
structure Sched where
  mem : Mem
  kTasks : Nat
  kLastTask : Nat
  kTask : Nat
  kNextPid : Nat
  cr3 : Nat

def Sched.setTask (s : Sched) (task field v : Nat) : Sched := { s with mem := s.mem.write64 (task + field) v }

/-! ## The functions -/

/-- Link the new task behind the last one. -/
def tskAppend (s : Sched) (task : Nat) : Sched :=
  if s.kTasks = 0 then { s with kTasks := task, kLastTask := task }
  else { s.setTask s.kLastTask taskNext task with kLastTask := task }

/-- `TskCreateTask`, where `kmalloc` returned `task`. -/
def tskCreateTask (s : Sched) (task name entry : Nat) : Sched :=
  let s := { s with mem := rtZeroMemory s.mem task sizeofTask }
  let s := tskAppend s task
  let s := { s.setTask task taskPid s.kNextPid with kNextPid := add64 s.kNextPid 1 }
  (s.setTask task taskName name).setTask task taskEntry entry

def tskCreateKernelTask (s : Sched) (task name entry : Nat) : Sched :=
  let s := tskCreateTask s task name entry
  s.setTask task taskMemory s.cr3

/-- The task after `task` in the chain, the first one after the last. -/
def tskNext (s : Sched) (task : Nat) : Nat :=
  let next := s.mem.read64 (task + taskNext)
  if next = 0 then s.kTasks else next

/-- `TskSchedule`: the first call only picks the head and leaves CR3 alone. -/
def tskSchedule (s : Sched) : Sched :=
  if s.kTask = 0 then { s with kTask := s.kTasks }
  else
    let next := tskNext s s.kTask
    { s with kTask := next, cr3 := s.mem.read64 (next + taskMemory) }

/-! ## Runs -/

/-- A call. `create` carries what `kmalloc` returned and the memory it left. -/
inductive TskOp where
  | create (task : Nat) (after : Mem) (name entry : Nat)
  | schedule

/-- The scheduler and the tasks created so far, in order. -/
structure TskRun where
  sched : Sched
  tasks : List Nat

def TskRun.boot (m : Mem) (cr3 : Nat) : TskRun := ⟨⟨m, 0, 0, 0, 0, cr3⟩, []⟩

def TskRun.step (r : TskRun) : TskOp → TskRun
  | .create task after name entry =>
      ⟨tskCreateKernelTask { r.sched with mem := after } task name entry, r.tasks ++ [task]⟩
  | .schedule => ⟨tskSchedule r.sched, r.tasks⟩

def tskStep (r : TskRun) (o : TskOp) : Option TskRun := some (r.step o)

/-- The tasks that the calls in `ops` create, in order. -/
def created (ops : List TskOp) : List Nat :=
  ops.filterMap fun o => match o with
    | .create task _ _ _ => some task
    | .schedule => none

/-- Two `Task` records that share no byte. -/
def Apart (a b : Nat) : Prop := a + sizeofTask ≤ b ∨ b + sizeofTask ≤ a

instance : Std.Symm Apart := ⟨fun _ _ h => Or.symm h⟩

/-- `x` is a byte of the task at `a`. -/
def InTask (a x : Nat) : Prop := a ≤ x ∧ x < a + sizeofTask

/-- `kmalloc` returns a record apart from the existing tasks and writes none of them. -/
def KmallocFresh (r : TskRun) : TskOp → Prop
  | .create task after _ _ => task ≠ 0 ∧ task + sizeofTask ≤ 2 ^ 64 ∧ (∀ a ∈ r.tasks, Apart a task) ∧
      Frame r.sched.mem after fun x => ∀ a ∈ r.tasks, ¬ InTask a x
  | .schedule => True

/-- The pids that the calls of `TskSchedule` in `ops` lead to. -/
def TskRun.pids (r : TskRun) : List TskOp → List Nat
  | [] => []
  | .schedule :: ops =>
      let r' := r.step .schedule
      if r'.sched.kTask = 0 then r'.pids ops else r'.sched.mem.read64 (r'.sched.kTask + taskPid) :: r'.pids ops
  | o :: ops => (r.step o).pids ops

/-- The chain from `a` through `next` is `ts`. -/
def TaskChain (m : Mem) : Nat → List Nat → Prop
  | a, [] => a = 0
  | a, t :: ts => a = t ∧ a ≠ 0 ∧ TaskChain m (m.read64 (a + taskNext)) ts

/-! ## One call -/

/-- The tasks by position: each links to the next one, `0` stands behind the last. -/
structure SchedInv (c : Nat) (r : TskRun) : Prop where
  head : r.sched.kTasks = r.tasks.getD 0 0
  last : r.sched.kLastTask = r.tasks.getD (r.tasks.length - 1) 0
  next : ∀ i a, r.tasks[i]? = some a → r.sched.mem.read64 (a + taskNext) = r.tasks.getD (i + 1) 0
  pid : ∀ i a, r.tasks[i]? = some a → r.sched.mem.read64 (a + taskPid) = i
  memory : ∀ a ∈ r.tasks, r.sched.mem.read64 (a + taskMemory) = c
  cr3 : r.sched.cr3 = c
  cur : r.sched.kTask = 0 ∨ r.sched.kTask ∈ r.tasks
  nextPid : r.sched.kNextPid = r.tasks.length
  apart : r.tasks.Pairwise Apart
  addr : ∀ a ∈ r.tasks, a ≠ 0 ∧ a + sizeofTask ≤ 2 ^ 64

theorem schedInv_boot (m : Mem) (c : Nat) : SchedInv c (TskRun.boot m c) :=
  ⟨rfl, rfl, by simp [TskRun.boot], by simp [TskRun.boot], by simp [TskRun.boot], rfl, Or.inl rfl, rfl,
    List.Pairwise.nil, by simp [TskRun.boot]⟩

theorem SchedInv.nodup {c : Nat} {r : TskRun} (h : SchedInv c r) : r.tasks.Nodup := by
  refine h.apart.imp ?_
  intro a b hab he
  subst he
  rcases hab with hab | hab <;> · unfold sizeofTask at hab; omega

/-- There are fewer tasks than addresses, so that no pid wraps. -/
theorem SchedInv.length_lt {c : Nat} {r : TskRun} (h : SchedInv c r) : r.tasks.length + 1 < 2 ^ 64 := by
  have hsub : r.tasks ⊆ List.range (2 ^ 64 - 71) := by
    intro a ha
    have := (h.addr a ha).2
    unfold sizeofTask at this
    exact List.mem_range.mpr (by omega)
  have hlen := (h.nodup.subperm hsub).length_le
  rw [List.length_range] at hlen
  omega

theorem tskAppend_spec (s : Sched) (task : Nat) :
    (tskAppend s task).kTasks = (if s.kTasks = 0 then task else s.kTasks) ∧ (tskAppend s task).kLastTask = task ∧
      (tskAppend s task).kTask = s.kTask ∧ (tskAppend s task).kNextPid = s.kNextPid ∧
      (tskAppend s task).cr3 = s.cr3 ∧
      (tskAppend s task).mem =
        if s.kTasks = 0 then s.mem else s.mem.write64 (s.kLastTask + taskNext) task := by
  unfold tskAppend
  by_cases h : s.kTasks = 0
  · simp [h]
  · simp [h, Sched.setTask]

/-- The memory after `TskCreateKernelTask`, write by write. -/
theorem tskCreateKernelTask_spec (s : Sched) (task name entry : Nat) :
    let s' := tskCreateKernelTask s task name entry
    s'.kTasks = (if s.kTasks = 0 then task else s.kTasks) ∧ s'.kLastTask = task ∧ s'.kTask = s.kTask ∧
      s'.kNextPid = add64 s.kNextPid 1 ∧ s'.cr3 = s.cr3 ∧
      s'.mem = (((((if s.kTasks = 0 then rtZeroMemory s.mem task sizeofTask
        else (rtZeroMemory s.mem task sizeofTask).write64 (s.kLastTask + taskNext) task).write64
          (task + taskPid) s.kNextPid).write64 (task + taskName) name).write64 (task + taskEntry) entry).write64
            (task + taskMemory) s.cr3) := by
  obtain ⟨h1, h2, h3, h4, h5, h6⟩ := tskAppend_spec { s with mem := rtZeroMemory s.mem task sizeofTask } task
  refine ⟨h1, h2, h3, ?_, h5, ?_⟩
  · simp only [tskCreateKernelTask, tskCreateTask, Sched.setTask, h4]
  · simp only [tskCreateKernelTask, tskCreateTask, Sched.setTask, h4, h5, h6]

theorem tskCreateKernelTask_new (s : Sched) (task name entry : Nat)
    (hlast : s.kTasks ≠ 0 → Apart s.kLastTask task) :
    let m' := (tskCreateKernelTask s task name entry).mem
    m'.read64 (task + taskPid) = s.kNextPid % 2 ^ 64 ∧ m'.read64 (task + taskMemory) = s.cr3 % 2 ^ 64 ∧
      m'.read64 (task + taskNext) = 0 := by
  obtain ⟨-, -, -, -, -, hm⟩ := tskCreateKernelTask_spec s task name entry
  simp only [hm]
  unfold taskPid taskMemory taskNext taskName taskEntry Mem.write64 Mem.read64
  refine ⟨?_, Mem.read_write _ _ _ _, ?_⟩
  · rw [Mem.read_write_of_disjoint _ _ (by omega), Mem.read_write_of_disjoint _ _ (by omega),
      Mem.read_write_of_disjoint _ _ (by omega)]
    exact Mem.read_write _ _ _ _
  · rw [Mem.read_write_of_disjoint _ _ (by omega), Mem.read_write_of_disjoint _ _ (by omega),
      Mem.read_write_of_disjoint _ _ (by omega), Mem.read_write_of_disjoint _ _ (by omega)]
    have hzero : (rtZeroMemory s.mem task sizeofTask).read (task + 64) 8 = 0 := by
      apply read_rtZeroMemory
      · omega
      · unfold sizeofTask
        omega
    by_cases h0 : s.kTasks = 0
    · rw [if_pos h0, hzero]
    · have hap := hlast h0
      unfold Apart sizeofTask at hap
      rw [if_neg h0, Mem.read_write_of_disjoint _ _ (by omega), hzero]

theorem frame_tskCreateKernelTask (s : Sched) (task name entry : Nat) :
    Frame s.mem (tskCreateKernelTask s task name entry).mem fun x => InTask task x ∨
      (s.kTasks ≠ 0 ∧ s.kLastTask + taskNext ≤ x ∧ x < s.kLastTask + taskNext + 8) := by
  obtain ⟨-, -, -, -, -, hm⟩ := tskCreateKernelTask_spec s task name entry
  intro x hx
  rw [not_or] at hx
  have hout : x < task ∨ task + sizeofTask ≤ x := by
    have := hx.1
    unfold InTask at this
    omega
  rw [hm]
  unfold taskPid taskMemory taskNext taskName taskEntry Mem.write64
  unfold taskNext at hx
  have hz : rtZeroMemory s.mem task sizeofTask x = s.mem x := frame_rtZeroMemory s.mem task sizeofTask x hx.1
  unfold sizeofTask at hout
  rw [Mem.write_apply_of_not_mem _ _ (by omega), Mem.write_apply_of_not_mem _ _ (by omega),
    Mem.write_apply_of_not_mem _ _ (by omega), Mem.write_apply_of_not_mem _ _ (by omega)]
  by_cases h0 : s.kTasks = 0
  · rw [if_pos h0, hz]
  · have hl : ¬ (s.kLastTask + 64 ≤ x ∧ x < s.kLastTask + 64 + 8) := fun h => hx.2 ⟨h0, h⟩
    rw [if_neg h0, Mem.write_apply_of_not_mem _ _ (by omega), hz]

theorem tskCreateKernelTask_link (s : Sched) (task name entry : Nat) (h0 : s.kTasks ≠ 0)
    (hlast : Apart s.kLastTask task) (ht : task < 2 ^ 64) :
    (tskCreateKernelTask s task name entry).mem.read64 (s.kLastTask + taskNext) = task := by
  obtain ⟨-, -, -, -, -, hm⟩ := tskCreateKernelTask_spec s task name entry
  unfold Apart sizeofTask at hlast
  rw [hm, if_neg h0]
  unfold taskPid taskMemory taskNext taskName taskEntry Mem.write64 Mem.read64
  rw [Mem.read_write_of_disjoint _ _ (by omega), Mem.read_write_of_disjoint _ _ (by omega),
    Mem.read_write_of_disjoint _ _ (by omega), Mem.read_write_of_disjoint _ _ (by omega), Mem.read_write]
  exact Nat.mod_eq_of_lt ht

theorem getD_mem_of_lt {ts : List Nat} {i : Nat} (h : i < ts.length) : ts.getD i 0 ∈ ts := by
  rw [List.getD_eq_getElem _ _ h]
  exact List.getElem_mem h

theorem SchedInv.kTasks_ne_zero_iff {c : Nat} {r : TskRun} (h : SchedInv c r) :
    r.sched.kTasks ≠ 0 ↔ 0 < r.tasks.length := by
  rw [h.head]
  constructor
  · intro h0
    by_contra hl
    rw [List.getD_eq_default _ _ (by omega)] at h0
    exact h0 rfl
  · intro hl
    exact (h.addr _ (getD_mem_of_lt hl)).1

/-- A field of an old task, other than the link of the last one, is not written by `TskCreateKernelTask`. -/
theorem SchedInv.create_read {c : Nat} {r : TskRun} (h : SchedInv c r) {task name entry : Nat} {after : Mem}
    (hk : KmallocFresh r (.create task after name entry)) {a field : Nat} (ha : a ∈ r.tasks)
    (hf : field + 8 ≤ sizeofTask) (hne : a = r.sched.kLastTask → field + 8 ≤ taskNext) :
    (r.step (.create task after name entry)).sched.mem.read64 (a + field) = r.sched.mem.read64 (a + field) := by
  obtain ⟨-, -, hap, hframe⟩ := hk
  have hafter : after.read64 (a + field) = r.sched.mem.read64 (a + field) := by
    apply hframe.read
    intro x h1 h2 hx
    exact hx a ha ⟨by omega, by omega⟩
  rw [← hafter]
  apply (frame_tskCreateKernelTask { r.sched with mem := after } task name entry).read
  intro x h1 h2 hx
  have hat := hap a ha
  rcases hx with hx | ⟨h0, hx1, hx2⟩
  · unfold Apart at hat
    unfold InTask at hx
    omega
  · change r.sched.kTasks ≠ 0 at h0
    change r.sched.kLastTask + taskNext ≤ x at hx1
    change x < r.sched.kLastTask + taskNext + 8 at hx2
    by_cases hal : a = r.sched.kLastTask
    · have := hne hal
      omega
    · have hlast : r.sched.kLastTask ∈ r.tasks := by
        rw [h.last]
        exact getD_mem_of_lt (by have := h.kTasks_ne_zero_iff.mp h0; omega)
      have hsep := h.apart.forall ha hlast hal
      unfold Apart sizeofTask at hsep
      unfold sizeofTask at hf
      unfold taskNext at hx1 hx2
      omega

theorem SchedInv.create {c : Nat} {r : TskRun} (h : SchedInv c r) (hc : c < 2 ^ 64) {task name entry : Nat}
    {after : Mem} (hk : KmallocFresh r (.create task after name entry)) :
    SchedInv c (r.step (.create task after name entry)) := by
  have hread : ∀ a field, a ∈ r.tasks → field + 8 ≤ sizeofTask → (a = r.sched.kLastTask → field + 8 ≤ taskNext) →
      (r.step (.create task after name entry)).sched.mem.read64 (a + field) = r.sched.mem.read64 (a + field) := by
    intro a field ha hf hne
    exact h.create_read hk ha hf hne
  obtain ⟨hne, htop, hap, -⟩ := hk
  have hlastmem : r.sched.kTasks ≠ 0 → r.sched.kLastTask ∈ r.tasks := by
    intro h0
    rw [h.last]
    exact getD_mem_of_lt (by have := h.kTasks_ne_zero_iff.mp h0; omega)
  have hlen := h.length_lt
  have ht : task < 2 ^ 64 := by unfold sizeofTask at htop; omega
  obtain ⟨e1, e2, e3, e4, e5, -⟩ := tskCreateKernelTask_spec { r.sched with mem := after } task name entry
  obtain ⟨n1, n2, n3⟩ := tskCreateKernelTask_new { r.sched with mem := after } task name entry
    (fun h0 => hap _ (hlastmem h0))
  refine ⟨?_, ?_, ?_, ?_, ?_, ?_, ?_, ?_, ?_, ?_⟩
  · change (tskCreateKernelTask _ task name entry).kTasks = (r.tasks ++ [task]).getD 0 0
    rw [e1]
    by_cases h0 : r.sched.kTasks = 0
    · have hnil : r.tasks = [] := by
        by_contra hne'
        exact h.kTasks_ne_zero_iff.mpr (List.length_pos_iff.mpr hne') h0
      simp [h0, hnil]
    · have hpos' := h.kTasks_ne_zero_iff.mp h0
      rw [if_neg h0, List.getD_append _ _ _ _ hpos', ← h.head]
  · change (tskCreateKernelTask _ task name entry).kLastTask = _
    rw [e2]
    simp [TskRun.step]
  · intro i a hi
    rcases getElem?_concat_eq_some hi with ⟨hlt, hi'⟩ | ⟨rfl, rfl⟩
    · have ha : a ∈ r.tasks := List.mem_of_getElem? hi'
      by_cases hil : i + 1 = r.tasks.length
      · have hal : a = r.sched.kLastTask := by
          rw [h.last, List.getD_eq_getElem?_getD, show r.tasks.length - 1 = i by omega, hi']
          rfl
        have h0 : r.sched.kTasks ≠ 0 := h.kTasks_ne_zero_iff.mpr (by omega)
        subst hal
        rw [show (r.step (.create task after name entry)).tasks = r.tasks ++ [task] from rfl, hil]
        rw [List.getD_append_right _ _ _ _ (le_refl _), Nat.sub_self, List.getD_cons_zero]
        exact tskCreateKernelTask_link { r.sched with mem := after } task name entry h0 (hap _ ha) ht
      · rw [show (r.step (.create task after name entry)).tasks = r.tasks ++ [task] from rfl,
          List.getD_append _ _ _ _ (by omega), ← h.next i a hi']
        apply hread a taskNext ha (by decide)
        intro hal
        have hl : r.tasks[r.tasks.length - 1]? = some a := by
          rw [hal, h.last, List.getD_eq_getElem _ _ (by omega), List.getElem?_eq_getElem (by omega)]
        have := (h.pid i a hi').symm.trans (h.pid _ a hl)
        omega
    · rw [show (r.step (.create a after name entry)).tasks = r.tasks ++ [a] from rfl,
        List.getD_eq_default _ _ (by simp)]
      exact n3
  · intro i a hi
    rcases getElem?_concat_eq_some hi with ⟨hlt, hi'⟩ | ⟨rfl, rfl⟩
    · rw [← h.pid i a hi']
      exact hread a taskPid (List.mem_of_getElem? hi') (by decide) (fun _ => by decide)
    · change (tskCreateKernelTask _ a name entry).mem.read64 (a + taskPid) = _
      rw [n1]
      change r.sched.kNextPid % 2 ^ 64 = r.tasks.length
      rw [h.nextPid, Nat.mod_eq_of_lt (by omega)]
  · intro a ha
    rcases List.mem_append.mp ha with ha | ha
    · rw [← h.memory a ha]
      exact hread a taskMemory ha (by decide) (fun _ => by decide)
    · rw [List.mem_singleton.mp ha]
      change (tskCreateKernelTask _ task name entry).mem.read64 (task + taskMemory) = _
      rw [n2]
      change r.sched.cr3 % 2 ^ 64 = c
      rw [h.cr3, Nat.mod_eq_of_lt hc]
  · change (tskCreateKernelTask _ task name entry).cr3 = c
    rw [e5]
    exact h.cr3
  · change (tskCreateKernelTask _ task name entry).kTask = 0 ∨ (tskCreateKernelTask _ task name entry).kTask ∈ _
    rw [e3]
    exact h.cur.imp_right fun hm => List.mem_append_left _ hm
  · change (tskCreateKernelTask _ task name entry).kNextPid = (r.tasks ++ [task]).length
    rw [e4]
    change add64 r.sched.kNextPid 1 = _
    rw [h.nextPid, add64_of_lt hlen, List.length_append, List.length_singleton]
  · apply List.pairwise_append.mpr
    refine ⟨h.apart, List.pairwise_singleton _ _, fun a ha b hb => ?_⟩
    rw [List.mem_singleton.mp hb]
    exact hap a ha
  · intro a ha
    rcases List.mem_append.mp ha with ha | ha
    · exact h.addr a ha
    · rw [List.mem_singleton.mp ha]
      exact ⟨hne, htop⟩

/-- The task at position `i` links to the one at `i + 1`, the last one leads back to the first. -/
theorem SchedInv.tskNext {c : Nat} {r : TskRun} (h : SchedInv c r) {i : Nat} (hi : i < r.tasks.length) :
    tskNext r.sched (r.tasks.getD i 0) = r.tasks.getD ((i + 1) % r.tasks.length) 0 := by
  have hget : r.tasks[i]? = some (r.tasks.getD i 0) := by
    rw [List.getD_eq_getElem _ _ hi, List.getElem?_eq_getElem hi]
  unfold Tsk.tskNext
  simp only [h.next i _ hget]
  by_cases hl : i + 1 < r.tasks.length
  · rw [if_neg (h.addr _ (getD_mem_of_lt hl)).1, Nat.mod_eq_of_lt hl]
  · rw [if_pos (List.getD_eq_default _ _ (by omega)), h.head, show i + 1 = r.tasks.length by omega, Nat.mod_self]

theorem SchedInv.kTask_eq {c : Nat} {r : TskRun} (h : SchedInv c r) (h0 : r.sched.kTask ≠ 0) :
    ∃ p < r.tasks.length, r.sched.kTask = r.tasks.getD p 0 := by
  obtain ⟨p, hp, he⟩ := List.getElem_of_mem (h.cur.resolve_left h0)
  exact ⟨p, hp, by rw [List.getD_eq_getElem _ _ hp, he]⟩

theorem SchedInv.pid_getD {c : Nat} {r : TskRun} (h : SchedInv c r) {p : Nat} (hp : p < r.tasks.length) :
    r.sched.mem.read64 (r.tasks.getD p 0 + taskPid) = p := by
  apply h.pid
  rw [List.getD_eq_getElem _ _ hp, List.getElem?_eq_getElem hp]

theorem SchedInv.schedule_of_pos {c : Nat} {r : TskRun} (h : SchedInv c r) {p : Nat} (hp : p < r.tasks.length)
    (hk : r.sched.kTask = r.tasks.getD p 0) :
    tskSchedule r.sched = { r.sched with kTask := r.tasks.getD ((p + 1) % r.tasks.length) 0 } := by
  have hmod : (p + 1) % r.tasks.length < r.tasks.length := Nat.mod_lt _ (by omega)
  have h0 : r.sched.kTask ≠ 0 := by
    rw [hk]
    exact (h.addr _ (getD_mem_of_lt hp)).1
  unfold tskSchedule
  rw [if_neg h0]
  simp only [hk, h.tskNext hp, h.memory _ (getD_mem_of_lt hmod), h.cr3]

theorem SchedInv.schedule {c : Nat} {r : TskRun} (h : SchedInv c r) : SchedInv c (r.step .schedule) := by
  by_cases h0 : r.sched.kTask = 0
  · have he : tskSchedule r.sched = { r.sched with kTask := r.sched.kTasks } := by
      unfold tskSchedule
      rw [if_pos h0]
    unfold TskRun.step
    rw [he]
    refine ⟨h.head, h.last, h.next, h.pid, h.memory, h.cr3, ?_, h.nextPid, h.apart, h.addr⟩
    change r.sched.kTasks = 0 ∨ r.sched.kTasks ∈ r.tasks
    by_cases hk : r.sched.kTasks = 0
    · exact Or.inl hk
    · have hmem := getD_mem_of_lt (h.kTasks_ne_zero_iff.mp hk)
      rw [← h.head] at hmem
      exact Or.inr hmem
  · obtain ⟨p, hp, hk⟩ := h.kTask_eq h0
    have hmod : (p + 1) % r.tasks.length < r.tasks.length := Nat.mod_lt _ (by omega)
    unfold TskRun.step
    rw [h.schedule_of_pos hp hk]
    exact ⟨h.head, h.last, h.next, h.pid, h.memory, h.cr3, Or.inr (getD_mem_of_lt hmod), h.nextPid, h.apart,
      h.addr⟩

theorem SchedInv.step {c : Nat} {r : TskRun} (h : SchedInv c r) (hc : c < 2 ^ 64) {o : TskOp}
    (hk : KmallocFresh r o) : SchedInv c (r.step o) := by
  cases o with
  | create task after name entry => exact h.create hc hk
  | schedule => exact h.schedule

/-! ## Whole runs -/

theorem run_tskStep_cons {r r' : TskRun} {o : TskOp} {ops : List TskOp} :
    run tskStep r (o :: ops) = some r' ↔ run tskStep (r.step o) ops = some r' := by
  rw [run_cons]
  rfl

theorem SchedInv.of_run {c : Nat} {r r' : TskRun} {ops : List TskOp} (h : SchedInv c r) (hc : c < 2 ^ 64)
    (hmeet : StepsMeet tskStep KmallocFresh r ops) (hrun : run tskStep r ops = some r') : SchedInv c r' := by
  refine run_invariant ?_ h hmeet hrun
  intro s o s' hs hk hstep
  rw [← Option.some.inj hstep]
  exact hs.step hc hk

theorem run_tasks {r r' : TskRun} {ops : List TskOp} (hrun : run tskStep r ops = some r') :
    r'.tasks = r.tasks ++ created ops := by
  induction ops generalizing r with
  | nil =>
      rw [← Option.some.inj hrun]
      simp [created]
  | cons o ops ih =>
      rw [ih (run_tskStep_cons.mp hrun)]
      cases o with
      | create task after name entry => simp [TskRun.step, created]
      | schedule => simp [TskRun.step, created]

theorem SchedInv.taskChain {c : Nat} {r : TskRun} (h : SchedInv c r) (ts : List Nat) (i : Nat)
    (hi : r.tasks.drop i = ts) : TaskChain r.sched.mem (r.tasks.getD i 0) ts := by
  induction ts generalizing i with
  | nil =>
      have hlen : r.tasks.length ≤ i := List.drop_eq_nil_iff.mp hi
      exact List.getD_eq_default _ _ hlen
  | cons t ts ih =>
      have hget : r.tasks[i]? = some t := by
        rw [← List.head?_drop, hi]
        rfl
      have hlt : i < r.tasks.length := (List.getElem?_eq_some_iff.mp hget).1
      have ht : r.tasks.getD i 0 = t := by
        rw [List.getD_eq_getElem?_getD, hget]
        rfl
      refine ⟨ht, (h.addr _ (getD_mem_of_lt hlt)).1, ?_⟩
      rw [h.next i _ (by rw [ht]; exact hget)]
      apply ih
      rw [← List.tail_drop, hi]
      rfl

theorem SchedInv.schedules {c : Nat} {r r' : TskRun} (h : SchedInv c r) {p k : Nat} (hp : p < r.tasks.length)
    (hk : r.sched.kTask = r.tasks.getD p 0) (hrun : run tskStep r (List.replicate k .schedule) = some r') :
    SchedInv c r' ∧ r'.tasks = r.tasks ∧ r'.sched.kTask = r.tasks.getD ((p + k) % r.tasks.length) 0 := by
  induction k generalizing r p with
  | zero =>
      rw [← Option.some.inj hrun, Nat.add_zero, Nat.mod_eq_of_lt hp]
      exact ⟨h, rfl, hk⟩
  | succ k ih =>
      have hmod : (p + 1) % r.tasks.length < r.tasks.length := Nat.mod_lt _ (by omega)
      have hk' : (r.step .schedule).sched.kTask = r.tasks.getD ((p + 1) % r.tasks.length) 0 := by
        unfold TskRun.step
        rw [h.schedule_of_pos hp hk]
      obtain ⟨h1, h2, h3⟩ := ih h.schedule hmod hk' (run_tskStep_cons.mp hrun)
      refine ⟨h1, h2, ?_⟩
      rw [h3]
      change r.tasks.getD (((p + 1) % r.tasks.length + k) % r.tasks.length) 0 = _
      rw [Nat.mod_add_mod, show p + 1 + k = p + (k + 1) by omega]

theorem SchedInv.pids_schedule {c : Nat} {r : TskRun} (h : SchedInv c r) {p : Nat} (hp : p < r.tasks.length)
    (hk : r.sched.kTask = r.tasks.getD p 0) (ops : List TskOp) :
    r.pids (.schedule :: ops) = (p + 1) % r.tasks.length :: (r.step .schedule).pids ops := by
  have hmod : (p + 1) % r.tasks.length < r.tasks.length := Nat.mod_lt _ (by omega)
  have hk' : (r.step .schedule).sched.kTask = r.tasks.getD ((p + 1) % r.tasks.length) 0 := by
    unfold TskRun.step
    rw [h.schedule_of_pos hp hk]
  have hne := (h.addr _ (getD_mem_of_lt hmod)).1
  have hpid := h.schedule.pid_getD hmod
  rw [TskRun.pids, if_neg (by rw [hk']; exact hne), hk']
  rw [show (r.step .schedule).tasks = r.tasks from rfl] at hpid
  rw [hpid]

theorem pids_append {r r' : TskRun} {ops ops' : List TskOp} (hrun : run tskStep r ops = some r') :
    r.pids (ops ++ ops') = r.pids ops ++ r'.pids ops' := by
  induction ops generalizing r with
  | nil =>
      rw [← Option.some.inj hrun]
      rfl
  | cons o ops ih =>
      have hrest := ih (run_tskStep_cons.mp hrun)
      cases o with
      | create task after name entry => exact hrest
      | schedule =>
          rw [List.cons_append, TskRun.pids, TskRun.pids]
          split
          · exact hrest
          · rw [hrest, List.cons_append]

/-- As long as the lap has not returned to pid `0`, the pids visited follow the current one without a gap, also when
tasks are created meanwhile. -/
theorem SchedInv.pids_lap {c : Nat} {r : TskRun} {ops : List TskOp} (h : SchedInv c r) (hc : c < 2 ^ 64) {p : Nat}
    (hp : p < r.tasks.length) (hk : r.sched.kTask = r.tasks.getD p 0)
    (hmeet : StepsMeet tskStep KmallocFresh r ops) (h0 : 0 ∉ r.pids ops) :
    ∃ k r', run tskStep r ops = some r' ∧ SchedInv c r' ∧ r.pids ops = List.range' (p + 1) k ∧
      p + k < r'.tasks.length ∧ r'.sched.kTask = r'.tasks.getD (p + k) 0 := by
  induction ops generalizing r p with
  | nil => exact ⟨0, r, rfl, h, rfl, hp, hk⟩
  | cons o ops ih =>
      have hmeet' := hmeet.2 (r.step o) rfl
      cases o with
      | create task after name entry =>
          have hk' : (r.step (.create task after name entry)).sched.kTask =
              (r.tasks ++ [task]).getD p 0 := by
            obtain ⟨-, -, e3, -, -, -⟩ :=
              tskCreateKernelTask_spec { r.sched with mem := after } task name entry
            rw [List.getD_append _ _ _ _ hp, ← hk]
            exact e3
          have hp' : p < (r.tasks ++ [task]).length := by
            rw [List.length_append]
            omega
          obtain ⟨k, r', hrun, hrest⟩ := ih (h.create hc hmeet.1) hp' hk' hmeet' h0
          exact ⟨k, r', run_tskStep_cons.mpr hrun, hrest⟩
      | schedule =>
          rw [h.pids_schedule hp hk, List.mem_cons, not_or] at h0
          have hlt : p + 1 < r.tasks.length := by
            by_contra hge
            rw [show p + 1 = r.tasks.length by omega, Nat.mod_self] at h0
            exact h0.1 rfl
          have hk' : (r.step .schedule).sched.kTask = r.tasks.getD (p + 1) 0 := by
            unfold TskRun.step
            rw [h.schedule_of_pos hp hk, Nat.mod_eq_of_lt hlt]
          obtain ⟨k, r', hrun, hinv, hpids, hlen, hcur⟩ := ih h.schedule hlt hk' hmeet' h0.2
          rw [show p + 1 + k = p + (k + 1) by omega] at hlen hcur
          refine ⟨k + 1, r', run_tskStep_cons.mpr hrun, hinv, ?_, hlen, hcur⟩
          rw [h.pids_schedule hp hk, hpids, Nat.mod_eq_of_lt hlt, List.range'_succ]

/-- A task created while a lap is under way is visited once before the lap is back at pid `0`. -/
theorem SchedInv.created_visited {c : Nat} {r : TskRun} (h : SchedInv c r) (hc : c < 2 ^ 64)
    (hcur : r.sched.kTask ≠ 0) {task name entry : Nat} {after : Mem} {ops : List TskOp}
    (hmeet : StepsMeet tskStep KmallocFresh r (.create task after name entry :: ops))
    (h0 : 0 ∉ (r.step (.create task after name entry)).pids ops)
    (hback : 0 ∈ (r.step (.create task after name entry)).pids (ops ++ [.schedule])) :
    ((r.step (.create task after name entry)).pids ops).count r.tasks.length = 1 := by
  obtain ⟨p, hp, hk⟩ := h.kTask_eq hcur
  set r₁ := r.step (.create task after name entry) with hr₁
  have htasks : r₁.tasks = r.tasks ++ [task] := rfl
  have hlen₁ : r₁.tasks.length = r.tasks.length + 1 := by rw [htasks, List.length_append, List.length_singleton]
  have hk₁ : r₁.sched.kTask = r₁.tasks.getD p 0 := by
    obtain ⟨-, -, e3, -, -, -⟩ := tskCreateKernelTask_spec { r.sched with mem := after } task name entry
    rw [htasks, List.getD_append _ _ _ _ hp, ← hk]
    exact e3
  have hinv₁ : SchedInv c r₁ := h.create hc hmeet.1
  obtain ⟨k, r', hrun, hinv, hpids, hlen, hcur'⟩ := hinv₁.pids_lap hc (by omega) hk₁ (hmeet.2 r₁ rfl) h0
  have hgrow : r₁.tasks.length ≤ r'.tasks.length := by
    rw [run_tasks hrun, List.length_append]
    omega
  -- the call that comes back to pid 0 starts from the last task
  have hwrap : p + k + 1 = r'.tasks.length := by
    rw [pids_append hrun, List.mem_append, hinv.pids_schedule hlen hcur'] at hback
    rcases hback with hback | hback
    · exact absurd hback h0
    · simp only [TskRun.pids, List.mem_singleton] at hback
      by_contra hne
      rw [Nat.mod_eq_of_lt (by omega)] at hback
      omega
  rw [hpids]
  apply List.count_eq_one_of_mem List.nodup_range'
  rw [List.mem_range'_1]
  omega

/-- **The scheduler.** After every run the chain from `kTasks` lists the tasks in the order of their creation and ends at
`kLastTask`, CR3 follows the current task, and the tasks take turns. -/
theorem tsk_run_round_robin (m : Mem) (cr3 : Nat) (hcr3 : cr3 < 2 ^ 64) (ops : List TskOp) (r : TskRun)
    (hmeet : StepsMeet tskStep KmallocFresh (TskRun.boot m cr3) ops)
    (hrun : run tskStep (TskRun.boot m cr3) ops = some r) :
    let s := r.sched
    let ts := created ops
    (TaskChain s.mem s.kTasks ts ∧ ts.Nodup ∧ (∀ i a, ts[i]? = some a → s.mem.read64 (a + taskPid) = i) ∧
      s.kLastTask = ts.getLastD 0) ∧
    (s.kTask = 0 ∨ s.kTask ∈ ts) ∧
    ((tskSchedule s).kTask ≠ 0 →
      (tskSchedule s).cr3 = (tskSchedule s).mem.read64 ((tskSchedule s).kTask + taskMemory)) ∧
    (s.kTask ≠ 0 → ∀ k r', run tskStep r (List.replicate k .schedule) = some r' → r'.sched.kTask ∈ ts ∧
      r'.sched.mem.read64 (r'.sched.kTask + taskPid) =
        (s.mem.read64 (s.kTask + taskPid) + k) % ts.length) ∧
    (s.kTask ≠ 0 → ∀ task after name entry ops',
      StepsMeet tskStep KmallocFresh r (.create task after name entry :: ops') →
      let r₁ := r.step (.create task after name entry)
      0 ∉ r₁.pids ops' → 0 ∈ r₁.pids (ops' ++ [.schedule]) → (r₁.pids ops').count ts.length = 1) := by
  have h := (schedInv_boot m cr3).of_run hcr3 hmeet hrun
  have hts : r.tasks = created ops := run_tasks hrun
  intro s ts
  have hts' : ts = r.tasks := hts.symm
  rw [hts']
  refine ⟨⟨?_, h.nodup, h.pid, ?_⟩, h.cur, ?_, ?_, ?_⟩
  · have hchain := h.taskChain r.tasks 0 rfl
    rwa [← h.head] at hchain
  · rw [List.getLastD_eq_getLast?, List.getLast?_eq_getElem?, ← List.getD_eq_getElem?_getD]
    exact h.last
  · intro hne
    have hmem := h.schedule.memory _ (h.schedule.cur.resolve_left hne)
    exact h.schedule.cr3.trans hmem.symm
  · intro hne k r' hk
    obtain ⟨p, hp, hcur⟩ := h.kTask_eq hne
    obtain ⟨hinv, htasks, hcur'⟩ := h.schedules hp hcur hk
    have hmod : (p + k) % r.tasks.length < r.tasks.length := Nat.mod_lt _ (by omega)
    have hpid := hinv.pid_getD (htasks ▸ hmod)
    rw [htasks] at hpid
    have hpid₀ : s.mem.read64 (s.kTask + taskPid) = p := by
      change r.sched.mem.read64 (r.sched.kTask + taskPid) = p
      rw [hcur, h.pid_getD hp]
    rw [hpid₀, hcur', hpid]
    exact ⟨getD_mem_of_lt hmod, rfl⟩
  · intro hne task after name entry ops' hmeet' r₁ h0 hback
    exact h.created_visited hcr3 hne hmeet' h0 hback

/-- Two tasks, created and scheduled up to the second one. -/
def twoTasks : List TskOp :=
  let r := TskRun.boot (fun _ => 0) 0x1000
  let first := .create 0x2000 r.sched.mem 0x500 0x600
  [first, .create 0x3000 (r.step first).sched.mem 0x508 0x700, .schedule, .schedule]

theorem meet_twoTasks : StepsMeet tskStep KmallocFresh (TskRun.boot (fun _ => 0) 0x1000) twoTasks := by
  refine ⟨⟨by decide, by decide, by simp [TskRun.boot], Frame.refl _ _⟩, fun r₁ h₁ => ?_⟩
  rw [← Option.some.inj h₁]
  refine ⟨⟨by decide, by decide, by simp [TskRun.boot, TskRun.step, Apart, sizeofTask], Frame.refl _ _⟩, fun r₂ _ => ?_⟩
  exact ⟨trivial, fun r₃ _ => ⟨trivial, fun r₄ _ => trivial⟩⟩

/-- A third task, created in the middle of a lap: one more call runs it, and the next one is back at the first task. -/
theorem tsk_run_round_robin_three : ∃ r, run tskStep (TskRun.boot (fun _ => 0) 0x1000) twoTasks = some r ∧
    TaskChain r.sched.mem r.sched.kTasks [0x2000, 0x3000] ∧ r.sched.kTask = 0x3000 ∧
      ((r.step (.create 0x4000 r.sched.mem 0x510 0x800)).pids [.schedule]).count 2 = 1 := by
  obtain ⟨r, hr⟩ : ∃ r, run tskStep (TskRun.boot (fun _ => 0) 0x1000) twoTasks = some r := ⟨_, rfl⟩
  have htasks : r.tasks = [0x2000, 0x3000] := run_tasks hr
  have hcur : (run tskStep (TskRun.boot (fun _ => 0) 0x1000) twoTasks).map (fun r => (r.sched.kTask,
      (r.step (.create 0x4000 r.sched.mem 0x510 0x800)).pids [.schedule],
      (r.step (.create 0x4000 r.sched.mem 0x510 0x800)).pids [.schedule, .schedule])) = some (0x3000, [2], [2, 0]) := by
    decide +kernel
  rw [hr, Option.map_some, Option.some.injEq, Prod.mk.injEq, Prod.mk.injEq] at hcur
  obtain ⟨hcur, hone, htwo⟩ := hcur
  obtain ⟨hchain, -, -, -, hvisit⟩ := tsk_run_round_robin (fun _ => 0) 0x1000 (by decide) twoTasks r meet_twoTasks hr
  refine ⟨r, hr, hchain.1, hcur, ?_⟩
  refine hvisit (by rw [hcur]; decide) 0x4000 r.sched.mem 0x510 0x800 [.schedule] ?_ ?_ ?_
  · refine ⟨⟨by decide, by decide, ?_, Frame.refl _ _⟩, fun _ _ => ⟨trivial, fun _ _ => trivial⟩⟩
    rw [htasks]
    simp [Apart, sizeofTask]
  · rw [hone]
    decide
  · rw [List.singleton_append, htwo]
    decide
end Gewodsys.Tsk
