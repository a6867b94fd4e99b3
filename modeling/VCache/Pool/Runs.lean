import Mathlib.Algebra.BigOperators.Group.List.Basic
import Mathlib.Algebra.GroupWithZero.Nat
import Mathlib.Data.List.Nodup
import VCache.Pool.Model

/-!
# Every task once

The queue, the hands of the workers and the finished tasks share out what was accepted. A
worker leaves only when the queue is empty for good, and nobody sleeps while there is work.
-/

namespace VCache.ThreadPool

/-! ### Workers and shutdowns in their lists -/

theorem filterMap_replace {α β : Type} (f : α → Option β) (l r : List α) (w : α) :
    (l ++ w :: r).filterMap f = l.filterMap f ++ (f w).toList ++ r.filterMap f := by
  cases hw : f w <;> simp [hw]

theorem mem_replace {α : Type} {l r : List α} {w x : α} (h : x ∈ l ++ w :: r) (hne : x ≠ w)
    (w' : α) : x ∈ l ++ w' :: r := by
  simp only [List.mem_append, List.mem_cons] at h ⊢
  tauto

theorem getElem?_replace {α : Type} {l r : List α} {w x : α} {i : Nat}
    (h : (l ++ w :: r)[i]? = some x) (hne : x ≠ w) (w' : α) : (l ++ w' :: r)[i]? = some x := by
  rcases Nat.lt_trichotomy i l.length with hi | hi | hi
  · rwa [List.getElem?_append_left hi] at h ⊢
  · rw [List.getElem?_append_right (by omega), hi, Nat.sub_self, List.getElem?_cons_zero] at h
    exact absurd (Option.some.inj h).symm hne
  · obtain ⟨j, hj⟩ : ∃ j, i - l.length = j + 1 := ⟨i - l.length - 1, by omega⟩
    rw [List.getElem?_append_right (by omega), hj, List.getElem?_cons_succ] at h ⊢
    exact h

namespace Worker

def Awake (w : Worker) : Prop := w ≠ .asleep ∧ w ≠ .exited

theorem wake_ne_asleep (w : Worker) : w.wake ≠ .asleep := by
  cases w <;> simp [wake]

theorem wake_eq_exited {w : Worker} : w.wake = .exited ↔ w = .exited := by
  cases w <;> simp [wake]

theorem task_wake (w : Worker) : w.wake.task = w.task := by cases w <;> rfl

theorem inside_wake (w : Worker) : w.wake.inside = w.inside := by cases w <;> rfl

theorem uncounted_wake (w : Worker) : w.wake.uncounted = w.uncounted := by cases w <;> rfl

def cost : Worker → Nat
  | .ready => 1
  | .asleep => 0
  | .running _ => 3
  | .catching _ => 2
  | .exited => 0

end Worker

def Shutdown.cost (threads : Nat) : Shutdown → Nat
  | .notifying => 2 * threads + 3
  | .joining next => threads - next + 1
  | .returned => 0

namespace System

structure Ledger (maxQueuedTasks : Nat) (s : System) : Prop where
  limit : s.pool.maxQueuedTasks = maxQueuedTasks
  bounded : maxQueuedTasks ≠ kUnboundedQueue → s.pool.tasks.length ≤ maxQueuedTasks
  accepted : s.accepted = s.started ++ s.pool.tasks
  shared : ∀ task, s.started.count task = s.held.count task + s.finished.count task
  throws : ∀ task, s.threw.count task + (s.workers.filterMap Worker.inside).count task
    ≤ s.started.count task
  counted : s.pool.taskExceptions + (s.workers.filterMap Worker.uncounted).length = s.threw.length

structure Threads (s : System) : Prop where
  some_worker : s.workers ≠ []
  left : .exited ∈ s.workers → s.pool.stopping = true ∧ s.pool.tasks = []
  stopped : s.shutdowns ≠ [] → s.pool.stopping = true
  joined : ∀ k, .joining k ∈ s.shutdowns → ∀ i < k, s.workers[i]? = some .exited
  returned : .returned ∈ s.shutdowns → ∀ w ∈ s.workers, w = .exited

/-- No lost wake-ups: a queued task has a notification on its way or a worker that will look
at the queue again, and so has a pool that stops. -/
structure Attended (s : System) : Prop where
  queued : s.pool.tasks ≠ [] → s.notifies ≠ 0 ∨ ∃ w ∈ s.workers, w.Awake
  stopping : s.pool.stopping = true → .notifying ∈ s.shutdowns ∨ .asleep ∉ s.workers

variable {maxQueuedTasks : Nat} {s s' : System}

/-! ### Critical sections -/

theorem accepted_append (s : System) (b : Bool) :
    accepted { s with results := s.results ++ [b] }
      = s.accepted ++ if b then [s.results.length] else [] := by
  unfold accepted
  have hcongr : (List.range s.results.length).filter (fun k => (s.results ++ [b])[k]? == some true)
      = (List.range s.results.length).filter fun k => s.results[k]? == some true := by
    refine List.filter_congr fun k hk => ?_
    rw [List.getElem?_append_left (List.mem_range.1 hk)]
  simp only [List.length_append, List.length_singleton, List.range_succ, List.filter_append, hcongr]
  cases b <;> simp

/-- `trySubmit` refuses, or puts the task at the end of a queue with room. -/
theorem submit_cases (s : System) :
    s.submit = { s with results := s.results ++ [false] } ∨
      s.pool.stopping = false ∧
      (s.pool.maxQueuedTasks ≠ kUnboundedQueue → s.pool.tasks.length < s.pool.maxQueuedTasks) ∧
      s.submit = { s with
        pool := { s.pool with tasks := s.pool.tasks ++ [s.results.length] }
        results := s.results ++ [true]
        notifies := s.notifies + 1 } := by
  unfold submit trySubmit
  split
  · exact .inl rfl
  next hs =>
    split
    · exact .inl rfl
    next hfull =>
      refine .inr ⟨by simpa using hs, fun hm => ?_, rfl⟩
      by_contra hge
      exact hfull ⟨hm, by omega⟩

/-- A worker goes to sleep, leaves for good, or takes the first task. -/
theorem enter_cases (p : ThreadPool) :
    (p.stopping = false ∧ p.tasks = [] ∧ p.enter = (p, .asleep)) ∨
      (p.stopping = true ∧ p.tasks = [] ∧ p.enter = (p, .exited)) ∨
      ∃ task rest, p.tasks = task :: rest ∧
        p.enter = ({ p with tasks := rest }, .running task) := by
  unfold enter
  cases hs : p.stopping <;> cases ht : p.tasks <;> simp

/-! ### The ledger -/

theorem Ledger.start (threadCount : Nat) :
    Ledger maxQueuedTasks (new threadCount maxQueuedTasks) := by
  have hnone : ∀ f : Worker → Option Nat, f .ready = none →
      (new threadCount maxQueuedTasks).workers.filterMap f = [] := by
    intro f hf
    simp [new, hf]
  refine ⟨rfl, fun _ => Nat.zero_le _, rfl, fun task => ?_, fun task => ?_, ?_⟩
  · rw [held, hnone _ rfl]
    rfl
  · rw [hnone _ rfl]
    simp [new]
  · rw [hnone _ rfl]
    rfl

theorem Ledger.move {l r : List Worker} {w w' : Worker} (h : Ledger maxQueuedTasks s)
    (hw : s.workers = l ++ w :: r) (hworkers : s'.workers = l ++ w' :: r)
    (hresults : s'.results = s.results)
    (hlimit : s'.pool.maxQueuedTasks = s.pool.maxQueuedTasks)
    (hlength : s'.pool.tasks.length ≤ s.pool.tasks.length)
    (hqueue : s'.started ++ s'.pool.tasks = s.started ++ s.pool.tasks)
    (hshared : ∀ task, s'.started.count task + w.task.toList.count task + s.finished.count task
      = s.started.count task + w'.task.toList.count task + s'.finished.count task)
    (hthrows : ∀ task,
      s'.threw.count task + w'.inside.toList.count task + s.started.count task
        ≤ s.threw.count task + w.inside.toList.count task + s'.started.count task)
    (hcounted : s'.pool.taskExceptions + w'.uncounted.toList.length + s.threw.length
      = s.pool.taskExceptions + w.uncounted.toList.length + s'.threw.length) :
    Ledger maxQueuedTasks s' := by
  refine ⟨hlimit.trans h.limit, fun hm => Nat.le_trans hlength (h.bounded hm), ?_, fun task => ?_,
    fun task => ?_, ?_⟩
  · rw [hqueue, ← h.accepted]
    unfold System.accepted
    rw [hresults]
  · have old := h.shared task
    have change := hshared task
    simp only [held, hw, hworkers, filterMap_replace, List.count_append] at old ⊢
    omega
  · have old := h.throws task
    have change := hthrows task
    simp only [hw, hworkers, filterMap_replace, List.count_append] at old ⊢
    omega
  · have old := h.counted
    simp only [hw, hworkers, filterMap_replace, List.length_append] at old ⊢
    omega

theorem Ledger.call (h : Ledger maxQueuedTasks s) (hc : Call s s') : Ledger maxQueuedTasks s' := by
  cases hc with
  | submit =>
    obtain ⟨hlimit, hbound, hacc, hshared, hthrows, hcount⟩ := h
    rcases submit_cases s with he | ⟨-, hroom, he⟩
    · rw [he]
      refine ⟨hlimit, hbound, ?_, hshared, hthrows, hcount⟩
      rw [accepted_append, hacc]
      simp
    · rw [he]
      refine ⟨hlimit, fun hm => ?_, ?_, hshared, hthrows, hcount⟩
      · have := hroom (hlimit ▸ hm)
        simp only [List.length_append, List.length_singleton]
        omega
      · have := accepted_append s true
        rw [hacc, if_pos rfl, List.append_assoc] at this
        exact this
  | shutdown => exact ⟨h.limit, h.bounded, h.accepted, h.shared, h.throws, h.counted⟩
  | wakeup hw =>
    exact h.move hw rfl rfl rfl (Nat.le_refl _) rfl (fun _ => rfl) (fun _ => Nat.le_refl _) rfl

theorem Ledger.work (h : Ledger maxQueuedTasks s) (hs : Work s s') : Ledger maxQueuedTasks s' := by
  cases hs with
  | notifyOne _ hw =>
    exact h.move hw rfl rfl rfl (Nat.le_refl _) rfl (fun _ => rfl) (fun _ => Nat.le_refl _) rfl
  | notifyNobody => exact ⟨h.limit, h.bounded, h.accepted, h.shared, h.throws, h.counted⟩
  | enter hw =>
    rcases enter_cases s.pool with ⟨-, -, he⟩ | ⟨-, -, he⟩ | ⟨task, rest, ht, he⟩
    · refine h.move hw rfl rfl ?_ ?_ ?_ ?_ ?_ ?_ <;> simp [he, Worker.task, Worker.inside,
        Worker.uncounted]
    · refine h.move hw rfl rfl ?_ ?_ ?_ ?_ ?_ ?_ <;> simp [he, Worker.task, Worker.inside,
        Worker.uncounted]
    · refine h.move hw rfl rfl ?_ ?_ ?_ (fun t => ?_) (fun t => ?_) ?_ <;>
        simp [he, ht, Worker.task, Worker.inside, Worker.uncounted]
      omega
  | taskReturn hw =>
    refine h.move hw rfl rfl rfl (Nat.le_refl _) rfl (fun t => ?_) (fun t => ?_) rfl <;>
      simp [Worker.task, Worker.inside]
    omega
  | taskThrow hw =>
    refine h.move hw rfl rfl rfl (Nat.le_refl _) rfl (fun t => ?_) (fun t => ?_) ?_ <;>
      simp [Worker.task, Worker.inside, Worker.uncounted]
    omega
  | count hw =>
    refine h.move hw rfl rfl rfl (Nat.le_refl _) rfl (fun t => ?_) (fun t => ?_) ?_ <;>
      simp [Worker.task, Worker.inside, Worker.uncounted]
    omega
  | notifyAll =>
    refine ⟨h.limit, h.bounded, h.accepted, ?_, ?_, ?_⟩
    · simpa [held, List.filterMap_map, Function.comp_def, Worker.task_wake] using h.shared
    · simpa [List.filterMap_map, Function.comp_def, Worker.inside_wake] using h.throws
    · simpa [List.filterMap_map, Function.comp_def, Worker.uncounted_wake] using h.counted
  | join => exact ⟨h.limit, h.bounded, h.accepted, h.shared, h.throws, h.counted⟩
  | shutdownReturn => exact ⟨h.limit, h.bounded, h.accepted, h.shared, h.throws, h.counted⟩

/-! ### The threads -/

theorem Threads.start (threadCount maxQueuedTasks : Nat) :
    Threads (new threadCount maxQueuedTasks) := by
  refine ⟨?_, fun h => ?_, fun h => absurd rfl h, fun _ h => ?_, fun h => ?_⟩
  · simp only [new, Ne, List.replicate_eq_nil_iff]
    split <;> omega
  · have := List.eq_of_mem_replicate h
    cases this
  · cases h
  · cases h

theorem Threads.move {l r : List Worker} {w w' : Worker} (h : Threads s)
    (hw : s.workers = l ++ w :: r) (hne : w ≠ .exited) (hworkers : s'.workers = l ++ w' :: r)
    (hshutdowns : s'.shutdowns = s.shutdowns) (hstopping : s'.pool.stopping = s.pool.stopping)
    (htasks : s.pool.tasks = [] → s'.pool.tasks = [])
    (hexit : w' = .exited → s.pool.stopping = true ∧ s.pool.tasks = []) : Threads s' := by
  have hleft : .exited ∈ s'.workers → s.pool.stopping = true ∧ s.pool.tasks = [] := by
    intro hm
    rw [hworkers] at hm
    by_cases hx : w' = .exited
    · exact hexit hx
    · refine h.left ?_
      rw [hw]
      simp only [List.mem_append, List.mem_cons] at hm ⊢
      tauto
  refine ⟨by simp [hworkers], fun hm => ?_, fun hn => ?_, fun k hk i hi => ?_, fun hr => ?_⟩
  · rw [hstopping]
    exact ⟨(hleft hm).1, htasks (hleft hm).2⟩
  · rw [hstopping]
    exact h.stopped (hshutdowns ▸ hn)
  · have := h.joined k (hshutdowns ▸ hk) i hi
    rw [hw] at this
    rw [hworkers]
    exact getElem?_replace this hne.symm w'
  · have := h.returned (hshutdowns ▸ hr) w (by rw [hw]; simp)
    exact absurd this hne

theorem Threads.call (h : Threads s) (hc : Call s s') : Threads s' := by
  cases hc with
  | submit =>
    rcases submit_cases s with he | ⟨hs, -, he⟩
    · rw [he]
      exact ⟨h.some_worker, h.left, h.stopped, h.joined, h.returned⟩
    · rw [he]
      refine ⟨h.some_worker, fun hm => ?_, h.stopped, h.joined, h.returned⟩
      rw [(h.left hm).1] at hs
      cases hs
  | shutdown =>
    refine ⟨h.some_worker, fun hm => ⟨rfl, (h.left hm).2⟩, fun _ => rfl, fun k hk => ?_,
      fun hr => ?_⟩
    · rcases List.mem_append.1 hk with hk | hk
      · exact h.joined k hk
      · cases List.mem_singleton.1 hk
    · rcases List.mem_append.1 hr with hr | hr
      · exact h.returned hr
      · cases List.mem_singleton.1 hr
  | wakeup hw => exact h.move hw (by simp) rfl rfl rfl id (by simp)

theorem Threads.shutdownMove {l r : List Shutdown} {c : Shutdown} (h : Threads s)
    (hc : s.shutdowns = l ++ c :: r) (c' : Shutdown)
    (hjoin : ∀ k, c' = .joining k → ∀ i < k, s.workers[i]? = some .exited)
    (hreturn : c' = .returned → ∀ w ∈ s.workers, w = .exited) :
    Threads { s with shutdowns := l ++ c' :: r } := by
  have hold : ∀ {x}, x ∈ l ++ c' :: r → x = c' ∨ x ∈ s.shutdowns := by
    intro x hx
    rw [hc]
    simp only [List.mem_append, List.mem_cons] at hx ⊢
    tauto
  refine ⟨h.some_worker, h.left, fun _ => h.stopped (by simp [hc]), fun k hk => ?_, fun hr => ?_⟩
  · rcases hold hk with hk | hk
    · exact hjoin k hk.symm
    · exact h.joined k hk
  · rcases hold hr with hr | hr
    · exact hreturn hr.symm
    · exact h.returned hr

theorem Threads.work (h : Threads s) (hs : Work s s') : Threads s' := by
  cases hs with
  | notifyOne _ hw => exact h.move hw (by simp) rfl rfl rfl id (by simp)
  | notifyNobody => exact ⟨h.some_worker, h.left, h.stopped, h.joined, h.returned⟩
  | enter hw =>
    rcases enter_cases s.pool with ⟨-, ht, he⟩ | ⟨hstop, ht, he⟩ | ⟨task, rest, ht, he⟩
    · exact h.move hw (by simp) rfl rfl (by simp [he]) (by simp [he]) (by simp [he])
    · exact h.move hw (by simp) rfl rfl (by simp [he]) (by simp [he]) fun _ => ⟨hstop, ht⟩
    · exact h.move hw (by simp) rfl rfl (by simp [he]) (by simp [ht]) (by simp [he])
  | taskReturn hw => exact h.move hw (by simp) rfl rfl rfl id (by simp)
  | taskThrow hw => exact h.move hw (by simp) rfl rfl rfl id (by simp)
  | count hw => exact h.move hw (by simp) rfl rfl rfl id (by simp)
  | @notifyAll l r hc =>
    have hmove := h.shutdownMove hc (.joining 0) (fun k hk i hi => ?_) fun hr => by cases hr
    · refine ⟨by simpa using h.some_worker, fun hm => ?_, hmove.stopped, fun k hk i hi => ?_,
        fun hr w hm => ?_⟩
      · obtain ⟨w, hm, hx⟩ := List.mem_map.1 hm
        rw [Worker.wake_eq_exited] at hx
        exact h.left (hx ▸ hm)
      · have := hmove.joined k hk i hi
        simp only [List.getElem?_map]
        simp only at this
        rw [this]
        rfl
      · obtain ⟨w', hm', rfl⟩ := List.mem_map.1 hm
        rw [hmove.returned hr w' hm']
        rfl
    · cases hk
      omega
  | @join k l r hc hx =>
    refine h.shutdownMove hc _ (fun k' hk i hi => ?_) fun hr => by cases hr
    cases hk
    rcases Nat.lt_succ_iff_lt_or_eq.1 hi with hi | rfl
    · exact h.joined k (by simp [hc]) i hi
    · exact hx
  | @shutdownReturn k l r hc hlen =>
    refine h.shutdownMove hc _ (fun k' hk => by cases hk) fun _ w hm => ?_
    obtain ⟨i, hi, rfl⟩ := List.getElem_of_mem hm
    have := h.joined k (by simp [hc]) i (by omega)
    rw [List.getElem?_eq_getElem hi] at this
    exact Option.some.inj this

/-! ### Wake-ups -/

theorem Attended.move {l r : List Worker} {w w' : Worker} (h : Attended s)
    (hw : s.workers = l ++ w :: r) (hworkers : s'.workers = l ++ w' :: r)
    (hshutdowns : s'.shutdowns = s.shutdowns) (hstopping : s'.pool.stopping = s.pool.stopping)
    (hawake : s'.pool.tasks ≠ [] → w'.Awake)
    (hasleep : w' = .asleep → s.pool.stopping = false) : Attended s' := by
  refine ⟨fun ht => .inr ⟨w', by simp [hworkers], hawake ht⟩, fun hstop => ?_⟩
  rw [hstopping] at hstop
  rw [hshutdowns]
  refine (h.stopping hstop).imp id fun hno hm => hno ?_
  rw [hworkers] at hm
  rw [hw]
  simp only [List.mem_append, List.mem_cons] at hm ⊢
  rcases hm with hm | hm | hm
  · exact .inl hm
  · rw [hasleep hm.symm] at hstop
    cases hstop
  · exact .inr (.inr hm)

theorem Attended.shutdownMove {l r : List Shutdown} {c : Shutdown} (h : Attended s)
    (hc : s.shutdowns = l ++ c :: r) (hne : c ≠ .notifying) (c' : Shutdown) :
    Attended { s with shutdowns := l ++ c' :: r } := by
  refine ⟨h.queued, fun hstop => (h.stopping hstop).imp_left fun hm => ?_⟩
  rw [hc] at hm
  simp only [List.mem_append, List.mem_cons] at hm ⊢
  rcases hm with hm | hm | hm
  · exact .inl hm
  · exact absurd hm.symm hne
  · exact .inr (.inr hm)

theorem Attended.call (h : Attended s) (hc : Call s s') : Attended s' := by
  cases hc with
  | submit =>
    rcases submit_cases s with he | ⟨-, -, he⟩
    · rw [he]
      exact ⟨h.queued, h.stopping⟩
    · rw [he]
      exact ⟨fun _ => .inl (by simp), h.stopping⟩
  | shutdown => exact ⟨h.queued, fun _ => .inl (by simp [shutdown])⟩
  | wakeup hw =>
    exact h.move hw rfl rfl rfl (fun _ => ⟨by simp, by simp⟩) (by simp)

theorem Attended.work (h : Attended s) (hthreads : Threads s) (hs : Work s s') : Attended s' := by
  cases hs with
  | notifyOne _ hw => exact h.move hw rfl rfl rfl (fun _ => ⟨by simp, by simp⟩) (by simp)
  | notifyNobody hn hno =>
    refine ⟨fun ht => .inr ?_, h.stopping⟩
    obtain ⟨w, hw⟩ := List.exists_mem_of_ne_nil _ hthreads.some_worker
    refine ⟨w, hw, fun he => hno (he ▸ hw), fun he => ?_⟩
    exact ht (hthreads.left (he ▸ hw)).2
  | enter hw =>
    rcases enter_cases s.pool with ⟨hstop, ht, he⟩ | ⟨hstop, ht, he⟩ | ⟨task, rest, ht, he⟩
    · exact h.move hw rfl rfl (by simp [he]) (by simp [he, ht]) fun _ => hstop
    · exact h.move hw rfl rfl (by simp [he]) (by simp [he, ht]) (by simp [he])
    · exact h.move hw rfl rfl (by simp [he]) (by simp [he, Worker.Awake]) (by simp [he])
  | taskReturn hw => exact h.move hw rfl rfl rfl (fun _ => ⟨by simp, by simp⟩) (by simp)
  | taskThrow hw => exact h.move hw rfl rfl rfl (fun _ => ⟨by simp, by simp⟩) (by simp)
  | count hw => exact h.move hw rfl rfl rfl (fun _ => ⟨by simp, by simp⟩) (by simp)
  | notifyAll hc =>
    refine ⟨fun ht => ?_, fun _ => .inr fun hm => ?_⟩
    · refine (h.queued ht).imp id fun ⟨w, hw, ha⟩ => ?_
      refine ⟨w.wake, List.mem_map_of_mem hw, w.wake_ne_asleep, fun he => ?_⟩
      exact ha.2 (Worker.wake_eq_exited.1 he)
    · obtain ⟨w, -, hw⟩ := List.mem_map.1 hm
      exact w.wake_ne_asleep hw
  | join hc _ => exact h.shutdownMove hc (by simp) _
  | shutdownReturn hc _ => exact h.shutdownMove hc (by simp) _

/-! ### Runs -/

theorem Reachable.inv {threadCount : Nat} (h : Reachable threadCount maxQueuedTasks s) :
    Ledger maxQueuedTasks s ∧ Threads s ∧ Attended s := by
  induction h with
  | start =>
    refine ⟨Ledger.start threadCount, Threads.start threadCount maxQueuedTasks, ?_⟩
    exact ⟨fun ht => absurd rfl ht, fun hs => by cases hs⟩
  | call _ hc ih => exact ⟨ih.1.call hc, ih.2.1.call hc, ih.2.2.call hc⟩
  | work _ hs ih => exact ⟨ih.1.work hs, ih.2.1.work hs, ih.2.2.work ih.2.1 hs⟩

/-! ### Work comes to an end -/

/-- The steps still to come. A task takes three: its worker takes it, the task ends, and an
exception is counted. -/
def cost (s : System) : Nat :=
  3 * s.pool.tasks.length + (s.workers.map Worker.cost).sum + 2 * s.notifies +
    (s.shutdowns.map (Shutdown.cost s.workers.length)).sum

theorem sum_cost_wake : ∀ workers : List Worker,
    ((workers.map Worker.wake).map Worker.cost).sum ≤ (workers.map Worker.cost).sum + workers.length
  | [] => Nat.le_refl _
  | w :: workers => by
    have ih := sum_cost_wake workers
    have hw : w.wake.cost ≤ w.cost + 1 := by cases w <;> simp [Worker.wake, Worker.cost]
    simp only [List.map_cons, List.sum_cons, List.length_cons]
    omega

theorem Work.cost_lt (h : Work s s') : s'.cost < s.cost := by
  cases h with
  | notifyOne hn hw =>
    simp [cost, hw, hn, Worker.cost]
    omega
  | notifyNobody hn _ =>
    simp [cost, hn]
  | enter hw =>
    rcases enter_cases s.pool with ⟨-, -, he⟩ | ⟨-, -, he⟩ | ⟨task, rest, ht, he⟩
    · simp [cost, hw, he, Worker.cost]
    · simp [cost, hw, he, Worker.cost]
    · simp [cost, hw, he, ht, Worker.cost]
      omega
  | taskReturn hw => simp [cost, hw, Worker.cost]
  | taskThrow hw => simp [cost, hw, Worker.cost]
  | count hw => simp [cost, hw, Worker.cost]
  | notifyAll hc =>
    have := sum_cost_wake s.workers
    simp only [cost, hc, List.map_append, List.map_cons, List.sum_append, List.sum_cons,
      List.length_map, Shutdown.cost]
    omega
  | @join k l r hc hx =>
    have hk : k < s.workers.length := (List.getElem?_eq_some_iff.1 hx).1
    simp only [cost, hc, List.map_append, List.map_cons, List.sum_append, List.sum_cons,
      Shutdown.cost]
    omega
  | shutdownReturn hc hlen =>
    simp only [cost, hc, List.map_append, List.map_cons, List.sum_append, List.sum_cons,
      Shutdown.cost]
    omega

theorem Works.le_cost {n : Nat} (h : Works n s s') : n ≤ s.cost := by
  induction h with
  | refl => exact Nat.zero_le _
  | step hs _ ih =>
    have := hs.cost_lt
    omega

/-- Every accepted task is over and every call of `shutdown` has returned. -/
def Settled (s : System) : Prop :=
  s.pool.tasks = [] ∧ s.held = [] ∧ ∀ c ∈ s.shutdowns, c = .returned

theorem exists_work_of_awake {w : Worker} (hm : w ∈ s.workers) (ha : w.Awake) :
    ∃ s', Work s s' := by
  obtain ⟨l, r, hw⟩ := List.append_of_mem hm
  cases w with
  | ready => exact ⟨_, .enter hw⟩
  | asleep => exact absurd rfl ha.1
  | running task => exact ⟨_, .taskReturn hw⟩
  | catching task => exact ⟨_, .count hw⟩
  | exited => exact absurd rfl ha.2

theorem exists_work_of_shutdown (hthreads : Threads s) (h : Attended s)
    (hidle : ∀ w ∈ s.workers, w = .asleep ∨ w = .exited) {c : Shutdown} (hc : c ∈ s.shutdowns)
    (hne : c ≠ .returned) : ∃ s', Work s s' := by
  by_cases hnotify : .notifying ∈ s.shutdowns
  · obtain ⟨l, r, hl⟩ := List.append_of_mem hnotify
    exact ⟨_, .notifyAll hl⟩
  · have hstop := hthreads.stopped (List.ne_nil_of_mem hc)
    have hno := (h.stopping hstop).resolve_left hnotify
    have hgone : ∀ w ∈ s.workers, w = .exited := fun w hm =>
      (hidle w hm).resolve_left fun he => hno (he ▸ hm)
    obtain ⟨l, r, hl⟩ := List.append_of_mem hc
    cases c with
    | notifying => exact absurd hc hnotify
    | returned => exact absurd rfl hne
    | joining k =>
      by_cases hk : k < s.workers.length
      · have hx := hgone s.workers[k] (List.getElem_mem hk)
        exact ⟨_, .join hl (by rw [List.getElem?_eq_getElem hk, hx])⟩
      · exact ⟨_, .shutdownReturn hl (by omega)⟩

theorem exists_work (hthreads : Threads s) (h : Attended s) (hs : ¬ Settled s) :
    ∃ s', Work s s' := by
  by_cases hactive : ∃ w ∈ s.workers, w.Awake
  · obtain ⟨w, hm, ha⟩ := hactive
    exact exists_work_of_awake hm ha
  · have hidle : ∀ w ∈ s.workers, w = .asleep ∨ w = .exited := by
      intro w hm
      by_contra hno
      exact hactive ⟨w, hm, fun he => hno (.inl he), fun he => hno (.inr he)⟩
    cases hn : s.notifies with
    | succ n =>
      by_cases hm : .asleep ∈ s.workers
      · obtain ⟨l, r, hw⟩ := List.append_of_mem hm
        exact ⟨_, .notifyOne hn hw⟩
      · exact ⟨_, .notifyNobody hn hm⟩
    | zero =>
      -- nobody is awake or about to be, so nothing is queued or held: a `shutdown` is left
      have htasks : s.pool.tasks = [] := by
        by_contra ht
        rcases h.queued ht with hz | ha
        · exact hz hn
        · exact hactive ha
      have hheld : s.held = [] := by
        refine List.filterMap_eq_nil_iff.2 fun w hm => ?_
        rcases hidle w hm with rfl | rfl <;> rfl
      obtain ⟨c, hc, hne⟩ : ∃ c ∈ s.shutdowns, c ≠ .returned := by
        by_contra hno
        refine hs ⟨htasks, hheld, fun c hc => ?_⟩
        by_contra hne
        exact hno ⟨c, hc, hne⟩
      exact exists_work_of_shutdown hthreads h hidle hc hne

/-! ### Each task once -/

theorem mem_accepted {k : Nat} : k ∈ s.accepted ↔ s.results[k]? = some true := by
  unfold accepted
  rw [List.mem_filter, List.mem_range, beq_iff_eq]
  refine ⟨And.right, fun h => ⟨?_, h⟩⟩
  exact (List.getElem?_eq_some_iff.1 h).1

theorem nodup_accepted (s : System) : s.accepted.Nodup := List.nodup_range.filter _

/-- What was accepted is queued, held or finished, each task in one place. -/
theorem Ledger.perm (h : Ledger maxQueuedTasks s) :
    s.accepted.Perm (s.pool.tasks ++ s.held ++ s.finished) := by
  rw [List.perm_iff_count]
  intro task
  have := h.shared task
  rw [h.accepted]
  simp only [List.count_append]
  omega

theorem Ledger.nodup_threw (h : Ledger maxQueuedTasks s) : s.threw.Nodup := by
  have hnodup := nodup_accepted s
  rw [h.accepted] at hnodup
  refine List.nodup_iff_count_le_one.2 fun task => ?_
  have hone := List.nodup_iff_count_le_one.1 (List.nodup_append.1 hnodup).1 task
  have := h.throws task
  omega

theorem accepted_of_stopping (hstop : s.pool.stopping = true) (h : Call s s' ∨ Work s s') :
    s'.accepted = s.accepted ∧ s'.pool.stopping = true := by
  rcases h with h | h
  · cases h with
    | submit =>
      rcases submit_cases s with he | ⟨hs, -⟩
      · rw [he, accepted_append]
        exact ⟨by simp, hstop⟩
      · rw [hstop] at hs
        cases hs
    | shutdown => exact ⟨rfl, rfl⟩
    | wakeup => exact ⟨rfl, hstop⟩
  · cases h with
    | enter =>
      refine ⟨rfl, ?_⟩
      rcases enter_cases s.pool with ⟨-, -, he⟩ | ⟨-, -, he⟩ | ⟨_, _, -, he⟩ <;>
        simpa [he] using hstop
    | _ => exact ⟨rfl, hstop⟩

/-- Once all workers have left, everything accepted is over and every exception counted. -/
theorem Ledger.all_finished (h : Ledger maxQueuedTasks s) (ht : Threads s)
    (hgone : ∀ w ∈ s.workers, w = .exited) :
    s.accepted.Perm s.finished ∧ s.pool.taskExceptions = s.threw.length := by
  obtain ⟨w, hw⟩ := List.exists_mem_of_ne_nil _ ht.some_worker
  have hnone : ∀ f : Worker → Option Nat, f .exited = none → s.workers.filterMap f = [] := by
    intro f hf
    refine List.filterMap_eq_nil_iff.2 fun w hm => ?_
    rw [hgone w hm, hf]
  have hperm := h.perm
  have hcount := h.counted
  rw [held, hnone _ rfl, (ht.left (hgone w hw ▸ hw)).2] at hperm
  rw [hnone _ rfl] at hcount
  exact ⟨hperm, hcount⟩

theorem Ledger.count_running (h : Ledger maxQueuedTasks s) {k : Nat}
    (hk : .running k ∈ s.workers) : s.workers.count (.running k) = 1 := by
  have hnodup := h.perm.nodup_iff.1 (nodup_accepted s)
  have hheld : s.held.count k ≤ 1 :=
    List.nodup_iff_count_le_one.1 (List.nodup_append.1 (List.nodup_append.1 hnodup).1).2.1 k
  have hle : ∀ workers : List Worker,
      workers.count (.running k) ≤ (workers.filterMap Worker.task).count k := by
    intro workers
    induction workers with
    | nil => exact Nat.le_refl _
    | cons w workers ih =>
      cases w <;> simp [List.count_cons, List.filterMap_cons, Worker.task] <;> omega
  have hpos := List.count_pos_iff.2 hk
  have := hle s.workers
  unfold held at hheld
  omega

theorem Ledger.accepted_of_over (h : Ledger maxQueuedTasks s) {k : Nat}
    (hk : k ∈ s.finished ∨ .catching k ∈ s.workers) : s.results[k]? = some true := by
  rw [← mem_accepted, h.perm.mem_iff, List.mem_append, List.mem_append]
  refine hk.symm.imp (fun hk => .inr ?_) id
  exact List.mem_filterMap.2 ⟨_, hk, rfl⟩

theorem Work.keeps_tasks (h : Work s s')
    (hin : (s.workers.filterMap Worker.inside).length
      ≤ (s'.workers.filterMap Worker.inside).length) :
    s'.results = s.results ∧ (∀ k, .running k ∈ s.workers → .running k ∈ s'.workers) ∧
    (∀ k, k ∈ s'.finished ∨ .catching k ∈ s'.workers → k ∈ s.finished ∨ .catching k ∈ s.workers) ∧
    (.returned ∈ s.shutdowns → .returned ∈ s'.shutdowns) := by
  cases h with
  | notifyOne _ hw =>
    refine ⟨rfl, fun k hk => mem_replace (hw ▸ hk) (by simp) _, fun k => Or.imp_right fun hk => ?_,
      id⟩
    exact hw ▸ mem_replace hk (by simp) _
  | enter hw =>
    refine ⟨rfl, fun k hk => mem_replace (hw ▸ hk) (by simp) _, fun k => Or.imp_right fun hk => ?_,
      id⟩
    refine hw ▸ mem_replace hk ?_ _
    rcases enter_cases s.pool with ⟨-, -, he⟩ | ⟨-, -, he⟩ | ⟨_, _, -, he⟩ <;> simp [he]
  | taskReturn hw =>
    simp only [hw, filterMap_replace, List.length_append, Worker.inside, Option.toList,
      List.length_cons, List.length_nil] at hin
    omega
  | taskThrow hw =>
    simp only [hw, filterMap_replace, List.length_append, Worker.inside, Option.toList,
      List.length_cons, List.length_nil] at hin
    omega
  | count hw =>
    refine ⟨rfl, fun k hk => mem_replace (hw ▸ hk) (by simp) _, fun k hk => ?_, id⟩
    rcases hk with hk | hk
    · rcases List.mem_append.1 hk with hk | hk
      · exact .inl hk
      · rw [List.mem_singleton.1 hk, hw]
        exact .inr (by simp)
    · exact .inr (hw ▸ mem_replace hk (by simp) _)
  | notifyAll hc =>
    refine ⟨rfl, fun k hk => List.mem_map.2 ⟨_, hk, rfl⟩, fun k => Or.imp_right fun hk => ?_,
      fun hr => mem_replace (hc ▸ hr) (by simp) _⟩
    obtain ⟨w, hm, hw⟩ := List.mem_map.1 hk
    cases w <;> simp [Worker.wake] at hw
    exact hw ▸ hm
  | notifyNobody => exact ⟨rfl, fun _ => id, fun _ => id, id⟩
  | join hc _ => exact ⟨rfl, fun _ => id, fun _ => id, fun hr => mem_replace (hc ▸ hr) (by simp) _⟩
  | shutdownReturn hc _ =>
    exact ⟨rfl, fun _ => id, fun _ => id, fun hr => mem_replace (hc ▸ hr) (by simp) _⟩

/-- The pool neither loses nor duplicates a task, whatever the interleaving; nor does it stop
short: while a task or a `shutdown` is not over some thread has a step to take, and without
further calls and wake-ups the steps come to an end. -/
theorem pool_runs_each_task_once {threadCount maxQueuedTasks : Nat} {s : System}
    (h : Reachable threadCount maxQueuedTasks s) :
    s.accepted = s.started ++ s.pool.tasks ∧
    (∀ k, k ∈ s.accepted ↔ s.results[k]? = some true) ∧
    s.started.Nodup ∧
    (s.pool.tasks ++ s.held ++ s.finished).Nodup ∧
    (∀ k, s.results[k]? = some true ↔ k ∈ s.pool.tasks ++ s.held ++ s.finished) ∧
    (maxQueuedTasks ≠ kUnboundedQueue → s.pool.tasks.length ≤ maxQueuedTasks) ∧
    (s.pool.stopping = true → ∀ s', Call s s' ∨ Work s s' →
      s'.accepted = s.accepted ∧ s'.pool.stopping = true) ∧
    (.exited ∈ s.workers → s.pool.tasks = []) ∧
    (.returned ∈ s.shutdowns → (∀ k, s.results[k]? = some true ↔ k ∈ s.finished) ∧
      s.started = s.accepted ∧ s.pool.taskExceptions = s.threw.length) ∧
    s.threw.Nodup ∧
    (¬ Settled s → ∃ s', Work s s') ∧
    (∀ n s', Works n s s' → n ≤ s.cost) := by
  obtain ⟨hledger, hthreads, hattended⟩ := h.inv
  have hnodup := nodup_accepted s
  refine ⟨hledger.accepted, fun k => mem_accepted, ?_, hledger.perm.nodup_iff.1 hnodup,
    fun k => mem_accepted.symm.trans hledger.perm.mem_iff, hledger.bounded,
    fun hstop s' => accepted_of_stopping hstop, fun hx => (hthreads.left hx).2, fun hr => ?_,
    hledger.nodup_threw, exists_work hthreads hattended, fun n s' => Works.le_cost⟩
  · rw [hledger.accepted] at hnodup
    exact (List.nodup_append.1 hnodup).1
  · have hgone := hthreads.returned hr
    obtain ⟨hperm, hcount⟩ := hledger.all_finished hthreads hgone
    obtain ⟨w, hw⟩ := List.exists_mem_of_ne_nil _ hthreads.some_worker
    have htasks := (hthreads.left (hgone w hw ▸ hw)).2
    refine ⟨fun k => mem_accepted.symm.trans hperm.mem_iff, ?_, hcount⟩
    rw [hledger.accepted, htasks, List.append_nil]

/-- One thread, a queue for one task: the second task is refused, the first one throws, and
`shutdown` returns. -/
theorem pool_runs_each_task_once_throw : ∃ s, Reachable 0 1 s ∧ s.results = [true, false] ∧
    s.shutdowns = [.returned] ∧ s.started = s.accepted ∧
    s.pool.taskExceptions = s.threw.length := by
  have h : Reachable 0 1 _ := .start
  have h := (h.call (.submit _)).call (.submit _)
  have h := h.work (@Work.enter _ [] [] rfl)
  have h := h.work (@Work.taskThrow _ 0 [] [] rfl)
  have h := h.work (@Work.count _ 0 [] [] rfl)
  have h := h.call (.shutdown _)
  have h := h.work (@Work.notifyAll _ [] [] rfl)
  have h := h.work (@Work.enter _ [] [] rfl)
  have h := h.work (@Work.join _ 0 [] [] rfl rfl)
  have h := h.work (@Work.shutdownReturn _ 1 [] [] rfl (by decide))
  obtain ⟨-, -, -, -, -, -, -, -, hreturned, -⟩ := pool_runs_each_task_once h
  exact ⟨_, h, rfl, rfl, (hreturned (by simp)).2⟩

end System

end VCache.ThreadPool
