import VCache.Pool.Runs
import VCache.Server.Lifecycle

/-!
# Every connection closed, and no other

A connection that is not closed owns its descriptor number: the table says so, and no other
connection can have the number. From that the sweep at shutdown finds the right sockets, and
each is closed once, unless an exception takes `serveConnection` past its last critical section.
-/

namespace VCache.Server

open ThreadPool (Worker)
open ThreadPool.System (Ledger)

namespace Loop

/-- `run` has cleared `running_`. -/
def flagDown : Loop → Bool
  | .sweeping | .draining | .joining | .drained => true
  | _ => false

/-- `run` has no connection in its hands. -/
def free : Loop → Bool
  | .submitting | .refusing _ => false
  | _ => true

theorem flagDown_of_swept {loop : Loop} (h : loop.swept = true) : loop.flagDown = true := by
  cases loop <;> first | rfl | cases h

end Loop

namespace Stage

theorem listed_of_inside {stage : Stage} (h : stage.inside = true) : stage.listed = true := by
  cases stage <;> first | rfl | cases h

theorem inside_of_listed {stage : Stage} (h : stage.listed = true) (hne : stage ≠ .thrown) :
    stage.inside = true := by
  cases stage <;> first | rfl | exact absurd rfl hne | cases h

theorem ne_closed_of_listed {stage : Stage} (h : stage.listed = true) : stage ≠ .closed := by
  rintro rfl
  cases h

theorem served_of_listed {stage : Stage} (h : stage.listed = true) : stage.served = true := by
  cases stage <;> first | rfl | cases h

end Stage

theorem Handles.stages {running : Bool} {stage stage' : Stage} (h : Handles running stage stage') :
    stage.inside = true ∧ stage'.inside = true ∧ (stage' = .receiving → running = true) := by
  cases h with
  | proceed hr => exact ⟨rfl, rfl, fun _ => hr⟩
  | _ => exact ⟨rfl, rfl, fun he => by cases he⟩

/-- Where connection `k` is, seen from `run`, the pool and the descriptor table. -/
structure Tracked (loop : Loop) (pool : ThreadPool.System) (files : Nat → Option File) (k : Nat)
    (c : Conn) : Prop where
  accepted : c.stage = .accepted ↔ loop = .submitting ∧ k = pool.results.length
  refused : c.stage = .refused ↔ loop = .refusing k
  served : c.stage.served = true → pool.results[k]? = some true
  inside : c.stage.inside = true → .running k ∈ pool.workers
  ended : k ∈ pool.finished ∨ .catching k ∈ pool.workers → c.stage = .closed ∨ c.stage = .thrown
  opened : c.stage ≠ .closed → files c.fd = some (.connection k)
  closes : c.closes = if c.stage = .closed then 1 else 0

namespace Tracked

variable {loop loop' : Loop} {pool : ThreadPool.System} {files files' : Nat → Option File} {k : Nat}
  {c : Conn} {stage : Stage}

theorem reloop (h : Tracked loop pool files k c)
    (hsub : loop' = .submitting ∧ k = pool.results.length ↔
      loop = .submitting ∧ k = pool.results.length)
    (href : loop' = .refusing k ↔ loop = .refusing k) : Tracked loop' pool files k c :=
  ⟨h.accepted.trans hsub.symm, h.refused.trans href.symm, h.served, h.inside, h.ended, h.opened,
    h.closes⟩

theorem refile {fd : Nat} {file : Option File} (h : Tracked loop pool files k c)
    (hfd : c.stage ≠ .closed → c.fd ≠ fd) :
    Tracked loop pool (Function.update files fd file) k c :=
  ⟨h.accepted, h.refused, h.served, h.inside, h.ended,
    fun hopen => (Function.update_of_ne (hfd hopen) _ _).trans (h.opened hopen), h.closes⟩

theorem move (h : Tracked loop pool files k c) (hfrom : c.stage.served = true)
    (hne : c.stage ≠ .thrown) (hto : stage.listed = true) (hrun : .running k ∈ pool.workers) :
    Tracked loop pool files k { c with stage } := by
  have hopen : c.stage ≠ .closed := by intro he; rw [he] at hfrom; cases hfrom
  refine ⟨⟨fun he => ?_, fun he => ?_⟩, ⟨fun he => ?_, fun he => ?_⟩, fun _ => h.served hfrom,
    fun _ => hrun, fun hover => ?_, fun _ => h.opened hopen, ?_⟩
  · subst he
    cases hto
  · rw [h.accepted.2 he] at hfrom
    cases hfrom
  · subst he
    cases hto
  · rw [h.refused.2 he] at hfrom
    cases hfrom
  · exact absurd (h.ended hover) (by simp [hopen, hne])
  · rw [if_neg (Stage.ne_closed_of_listed hto)]
    exact h.closes.trans (if_neg hopen)

theorem close (h : Tracked loop pool files k c) (hopen : c.stage ≠ .closed)
    (hsub : ¬(loop' = .submitting ∧ k = pool.results.length)) (href : loop' ≠ .refusing k) :
    Tracked loop' pool files' k { c with stage := .closed, closes := c.closes + 1 } := by
  refine ⟨⟨(fun he => by cases he), fun he => absurd he hsub⟩,
    ⟨(fun he => by cases he), fun he => absurd he href⟩, (fun hs => by cases hs),
    (fun hs => by cases hs), fun _ => .inl rfl, fun hne => absurd rfl hne, ?_⟩
  rw [if_pos rfl, h.closes, if_neg hopen]

end Tracked

namespace World

structure Inv (w : World) : Prop where
  tracked : ∀ k c, w.conns[k]? = some c → Tracked w.loop w.pool w.files k c
  active : ∀ fd, fd ∈ w.activeConnections ↔
    ∃ (k : Nat) (c : Conn), w.conns[k]? = some c ∧ c.fd = fd ∧ c.stage.listed = true
  length : w.conns.length = w.pool.results.length + if w.loop = .submitting then 1 else 0
  refusing : ∀ k, w.loop = .refusing k → k < w.conns.length
  flag : w.loop.flagDown = true → w.running = false
  swept : w.loop.swept = true → ∀ c ∈ w.conns, c.stage = .receiving → c.shut = true
  drained : w.loop = .drained → .returned ∈ w.pool.shutdowns

variable {w w' : World} {k : Nat} {c : Conn}

/-- Connections that are open have numbers of their own. -/
theorem Inv.owner (h : Inv w) {j : Nat} {c' : Conn} (hc : w.conns[k]? = some c)
    (hc' : w.conns[j]? = some c') (hopen : c.stage ≠ .closed) (hopen' : c'.stage ≠ .closed)
    (hfd : c'.fd = c.fd) : j = k := by
  have hk := (h.tracked k c hc).opened hopen
  have hj := (h.tracked j c' hc').opened hopen'
  rw [hfd, hk] at hj
  cases hj
  rfl

/-! ### Steps that leave the connections alone -/

theorem Inv.goto {loop : Loop} {running : Bool} (h : Inv w) (hfrom : w.loop.free = true)
    (hto : loop.free = true) (hflag : loop.flagDown = true → running = false)
    (hswept : loop.swept = true → w.loop.swept = true)
    (hdrained : loop = .drained → .returned ∈ w.pool.shutdowns) :
    Inv { w with running, loop } := by
  have hsub : w.loop ≠ .submitting := by rintro he; rw [he] at hfrom; cases hfrom
  have hsub' : loop ≠ .submitting := by rintro rfl; cases hto
  have href : ∀ k, w.loop ≠ .refusing k := by rintro k he; rw [he] at hfrom; cases hfrom
  have href' : ∀ k, loop ≠ .refusing k := by rintro k rfl; cases hto
  refine ⟨fun k c hc => ?_, h.active, ?_, fun k hk => absurd hk (href' k), hflag,
    fun hs => h.swept (hswept hs), hdrained⟩
  · apply (h.tracked k c hc).reloop
    · exact ⟨fun he => absurd he.1 hsub', fun he => absurd he.1 hsub⟩
    · exact ⟨fun he => absurd he (href' k), fun he => absurd he (href k)⟩
  · have := h.length
    rw [if_neg hsub] at this
    rw [if_neg hsub']
    exact this

theorem Inv.onPool {pool : ThreadPool.System} (h : Inv w)
    (hresults : pool.results = w.pool.results)
    (hrunning : ∀ k c, w.conns[k]? = some c → c.stage.inside = true →
      .running k ∈ w.pool.workers → .running k ∈ pool.workers)
    (hover : ∀ k c, w.conns[k]? = some c → k ∈ pool.finished ∨ .catching k ∈ pool.workers →
      (k ∈ w.pool.finished ∨ .catching k ∈ w.pool.workers) ∨ c.stage = .closed ∨ c.stage = .thrown)
    (hreturned : .returned ∈ w.pool.shutdowns → .returned ∈ pool.shutdowns) :
    Inv { w with pool } := by
  refine ⟨fun k c hc => ?_, h.active, ?_, h.refusing, h.flag, h.swept,
    fun hr => hreturned (h.drained hr)⟩
  · have ht := h.tracked k c hc
    refine ⟨?_, ht.refused, ?_, fun hin => hrunning k c hc hin (ht.inside hin), fun hk => ?_,
      ht.opened, ht.closes⟩
    · rw [hresults]
      exact ht.accepted
    · rw [hresults]
      exact ht.served
    · exact (hover k c hc hk).elim ht.ended id
  · rw [hresults]
    exact h.length

theorem Inv.onFiles {fd : Nat} {file : Option File} (h : Inv w)
    (hfd : ∀ k, w.files fd ≠ some (.connection k)) :
    Inv { w with files := Function.update w.files fd file } := by
  refine ⟨fun k c hc => ?_, h.active, h.length, h.refusing, h.flag, h.swept, h.drained⟩
  have ht := h.tracked k c hc
  exact ht.refile fun hopen he => hfd k (he ▸ ht.opened hopen)

/-! ### Steps of one connection -/

theorem getElem?_modify_iff {α : Type} {l : List α} {f : α → α} {j k : Nat} {x : α} :
    (l.modify k f)[j]? = some x ↔
      (j = k ∧ ∃ y, l[k]? = some y ∧ x = f y) ∨ (j ≠ k ∧ l[j]? = some x) := by
  rw [List.getElem?_modify]
  by_cases hj : j = k
  · subst hj
    cases l[j]? <;> simp [eq_comm]
  · cases l[j]? <;> simp [hj, Ne.symm hj]

theorem getElem?_concat_iff {α : Type} {l : List α} {j : Nat} {x y : α} :
    (l ++ [y])[j]? = some x ↔ l[j]? = some x ∨ (j = l.length ∧ x = y) := by
  rcases Nat.lt_trichotomy j l.length with hj | rfl | hj
  · rw [List.getElem?_append_left hj]
    simp [hj.ne]
  · simp [eq_comm]
  · rw [List.getElem?_eq_none (by simp; omega), List.getElem?_eq_none (by omega)]
    simp [hj.ne']

theorem listed_move {conns : List Conn} {stage : Stage} (hc : conns[k]? = some c)
    (hto : stage.listed = true) (fd : Nat) :
    (∃ (j : Nat) (c' : Conn), (conns.modify k fun c => { c with stage })[j]? = some c' ∧
        c'.fd = fd ∧ c'.stage.listed = true) ↔
      (∃ (j : Nat) (c' : Conn), conns[j]? = some c' ∧ c'.fd = fd ∧ c'.stage.listed = true) ∨
        fd = c.fd := by
  constructor
  · rintro ⟨j, c', hj, hfd, hl⟩
    rcases getElem?_modify_iff.1 hj with ⟨rfl, y, hy, rfl⟩ | ⟨-, hj⟩
    · rw [hc] at hy
      cases hy
      exact .inr hfd.symm
    · exact .inl ⟨j, c', hj, hfd, hl⟩
  · have hhere : (conns.modify k fun c => { c with stage })[k]? = some { c with stage } :=
      getElem?_modify_iff.2 (.inl ⟨rfl, c, hc, rfl⟩)
    rintro (⟨j, c', hj, hfd, hl⟩ | rfl)
    · by_cases hjk : j = k
      · subst hjk
        rw [hc] at hj
        cases hj
        exact ⟨j, _, hhere, hfd, hto⟩
      · exact ⟨j, c', getElem?_modify_iff.2 (.inr ⟨hjk, hj⟩), hfd, hl⟩
    · exact ⟨k, _, hhere, rfl, hto⟩

theorem Inv.move {stage : Stage} {active : List Nat} (h : Inv w) (hc : w.conns[k]? = some c)
    (hfrom : c.stage.served = true) (hne : c.stage ≠ .thrown) (hto : stage.listed = true)
    (hrun : .running k ∈ w.pool.workers)
    (hactive : ∀ fd, fd ∈ active ↔ fd ∈ w.activeConnections ∨ fd = c.fd)
    (hrecv : stage = .receiving → w.running = true) :
    Inv { w.move k stage with activeConnections := active } := by
  refine ⟨fun j c' hj => ?_, fun fd => ?_, ?_, ?_, h.flag, fun hs c' hm hstage => ?_, h.drained⟩
  · rcases getElem?_modify_iff.1 hj with ⟨rfl, y, hy, rfl⟩ | ⟨-, hj⟩
    · rw [hc] at hy
      cases hy
      exact (h.tracked j c hc).move hfrom hne hto hrun
    · exact h.tracked j c' hj
  · rw [hactive, h.active]
    exact (listed_move hc hto fd).symm
  · exact (List.length_modify ..).trans h.length
  · intro j hj
    exact (h.refusing j hj).trans_eq (List.length_modify ..).symm
  · obtain ⟨j, hj⟩ := List.mem_iff_getElem?.1 hm
    rcases getElem?_modify_iff.1 hj with ⟨rfl, y, hy, rfl⟩ | ⟨-, hj⟩
    · -- the flag has been down since before the sweep
      have hflag := h.flag (Loop.flagDown_of_swept hs)
      rw [hrecv hstage] at hflag
      cases hflag
    · exact h.swept hs c' (List.mem_iff_getElem?.2 ⟨j, hj⟩) hstage

theorem Inv.listed_close (h : Inv w) (hc : w.conns[k]? = some c) (hopen : c.stage ≠ .closed)
    (fd : Nat) :
    (∃ (j : Nat) (c' : Conn), (w.close k c.fd).conns[j]? = some c' ∧ c'.fd = fd ∧
        c'.stage.listed = true) ↔ fd ∈ w.activeConnections ∧ fd ≠ c.fd := by
  rw [h.active]
  constructor
  · rintro ⟨j, c', hj, rfl, hl⟩
    rcases getElem?_modify_iff.1 hj with ⟨rfl, y, hy, rfl⟩ | ⟨hjk, hj⟩
    · cases hl
    · refine ⟨⟨j, c', hj, rfl, hl⟩, fun he => hjk ?_⟩
      exact h.owner hc hj hopen (Stage.ne_closed_of_listed hl) he
  · rintro ⟨⟨j, c', hj, hfd, hl⟩, hne⟩
    have hjk : j ≠ k := by
      rintro rfl
      rw [hc] at hj
      cases hj
      exact hne hfd.symm
    exact ⟨j, c', getElem?_modify_iff.2 (.inr ⟨hjk, hj⟩), hfd, hl⟩

/-- Whoever has the connection closes it: its worker, or `run` when the pool refused it. -/
theorem Inv.close {active : List Nat} {loop : Loop} (h : Inv w) (hc : w.conns[k]? = some c)
    (hopen : c.stage ≠ .closed) (hactive : ∀ fd, fd ∈ active ↔ fd ∈ w.activeConnections ∧ fd ≠ c.fd)
    (hloop : c.stage = .leaving ∧ loop = w.loop ∨ w.loop = .refusing k ∧ loop = .testing) :
    Inv { w.close k c.fd with activeConnections := active, loop } := by
  have ht := h.tracked k c hc
  have hsub : ∀ j, (loop = .submitting ∧ j = w.pool.results.length) ↔
      (w.loop = .submitting ∧ j = w.pool.results.length) := by
    rcases hloop with ⟨-, rfl⟩ | ⟨hl, rfl⟩ <;> simp [*]
  have href : ∀ j, j ≠ k → (loop = .refusing j ↔ w.loop = .refusing j) := by
    rcases hloop with ⟨-, rfl⟩ | ⟨hl, rfl⟩ <;> simp [*, eq_comm]
  have hhere : ¬(loop = .submitting ∧ k = w.pool.results.length) ∧ loop ≠ .refusing k := by
    rcases hloop with ⟨hs, rfl⟩ | ⟨-, rfl⟩
    · rw [← ht.accepted, Ne, ← ht.refused, hs]
      simp
    · simp
  refine ⟨fun j c' hj => ?_, fun fd => ?_, ?_, fun j hj => ?_, fun hf => ?_,
    fun hs c' hm hstage => ?_, fun hr => ?_⟩
  · rcases getElem?_modify_iff.1 hj with ⟨rfl, y, hy, rfl⟩ | ⟨hjk, hj⟩
    · rw [hc] at hy
      cases hy
      exact ht.close hopen hhere.1 hhere.2
    · apply ((h.tracked j c' hj).reloop (hsub j) (href j hjk)).refile
      exact fun hopen' he => hjk (h.owner hc hj hopen hopen' he)
  · rw [hactive]
    exact (h.listed_close hc hopen fd).symm
  · refine (List.length_modify ..).trans (h.length.trans ?_)
    rcases hloop with ⟨-, rfl⟩ | ⟨hl, rfl⟩
    · rfl
    · rw [if_neg (by simp [hl]), if_neg (by simp)]
      rfl
  · refine Nat.lt_of_lt_of_eq ?_ (List.length_modify ..).symm
    by_cases hjk : j = k
    · exact absurd (hjk ▸ hj) hhere.2
    · exact h.refusing j ((href j hjk).1 hj)
  · rcases hloop with ⟨-, rfl⟩ | ⟨-, rfl⟩
    · exact h.flag hf
    · cases hf
  · obtain ⟨j, hj⟩ := List.mem_iff_getElem?.1 hm
    rcases getElem?_modify_iff.1 hj with ⟨rfl, y, hy, rfl⟩ | ⟨-, hold⟩
    · cases hstage
    · rcases hloop with ⟨-, rfl⟩ | ⟨-, rfl⟩
      · exact h.swept hs c' (List.mem_iff_getElem?.2 ⟨j, hold⟩) hstage
      · cases hs
  · rcases hloop with ⟨-, rfl⟩ | ⟨-, rfl⟩
    · exact h.drained hr
    · cases hr

/-! ### Steps of `run` with a connection -/

theorem Inv.accept {fd : Nat} {maxQueuedTasks : Nat} (h : Inv w)
    (hpool : Ledger maxQueuedTasks w.pool) (hl : w.loop = .accepting)
    (hfd : w.files fd = none) : Inv (w.accept fd) := by
  have hlength : w.conns.length = w.pool.results.length := by
    have := h.length
    rwa [hl] at this
  refine ⟨fun j c' hj => ?_, fun fd' => ?_, ?_, (fun j hj => by cases hj), (fun hf => by cases hf),
    (fun hs => by cases hs), (fun hr => by cases hr)⟩
  · rcases getElem?_concat_iff.1 hj with hj | ⟨rfl, rfl⟩
    · have ht := h.tracked j c' hj
      have hlt := (List.getElem?_eq_some_iff.1 hj).1
      refine (ht.reloop ?_ (by simp [hl, World.accept])).refile fun hopen he => ?_
      · simp only [hl, World.accept, true_and, reduceCtorEq, false_and, iff_false]
        omega
      · have := ht.opened hopen
        rw [he, hfd] at this
        cases this
    · refine ⟨⟨fun _ => ⟨rfl, hlength⟩, fun _ => rfl⟩, ⟨(fun he => by cases he),
        (fun he => by cases he)⟩, (fun hs => by cases hs), (fun hs => by cases hs), fun hover => ?_,
        fun _ => Function.update_self .., rfl⟩
      have := (List.getElem?_eq_some_iff.1 (hpool.accepted_of_over hover)).1
      omega
  · refine (h.active fd').trans (exists_congr fun j => exists_congr fun c' => ?_)
    constructor
    · exact fun hc => ⟨getElem?_concat_iff.2 (.inl hc.1), hc.2⟩
    · rintro ⟨hj, hrest⟩
      rcases getElem?_concat_iff.1 hj with hj | ⟨-, rfl⟩
      · exact ⟨hj, hrest⟩
      · cases hrest.2
  · have : (w.accept fd).conns.length = w.conns.length + 1 := List.length_append ..
    rw [this, hlength]
    rfl

theorem Inv.pending (h : Inv w) (hl : w.loop = .submitting) :
    w.conns.length = w.pool.results.length + 1 ∧
    ∃ c, w.conns[w.pool.results.length]? = some c ∧ c.stage = .accepted := by
  have hlength : w.conns.length = w.pool.results.length + 1 := by
    have := h.length
    rwa [hl] at this
  have hc := List.getElem?_eq_getElem (l := w.conns) (i := w.pool.results.length) (by omega)
  exact ⟨hlength, _, hc, (h.tracked _ _ hc).accepted.2 ⟨hl, rfl⟩⟩

theorem submit_loop (w : World) :
    w.submit.loop = .testing ∨ w.submit.loop = .refusing w.pool.results.length := by
  simp only [World.submit]
  split
  · exact .inl rfl
  · exact .inr rfl

theorem Inv.submit_here (h : Inv w) (hc : w.conns[w.pool.results.length]? = some c)
    (hstage : c.stage = .accepted) :
    Tracked w.submit.loop w.submit.pool w.submit.files w.pool.results.length { c with
      stage := if (w.pool.pool.trySubmit w.pool.results.length).2 then .queued else .refused } := by
  have ht := h.tracked _ c hc
  have hopen := ht.opened (by simp [hstage])
  have hcloses : c.closes = 0 := by simpa [hstage] using ht.closes
  have hover : ¬(w.pool.results.length ∈ w.pool.finished ∨
      .catching w.pool.results.length ∈ w.pool.workers) := fun ho => by
    simpa [hstage] using ht.ended ho
  cases htaken : (w.pool.pool.trySubmit w.pool.results.length).2 with
  | true =>
    have hloop : w.submit.loop = .testing := by simp [World.submit, htaken]
    have hresults : w.submit.pool.results = w.pool.results ++ [true] := by
      simp [World.submit, ThreadPool.System.submit, htaken]
    exact ⟨by simp [hloop], by simp [hloop], fun _ => by simp [hresults], by simp [Stage.inside],
      fun ho => absurd ho hover, fun _ => hopen, by simp [hcloses]⟩
  | false =>
    have hloop : w.submit.loop = .refusing w.pool.results.length := by simp [World.submit, htaken]
    exact ⟨by simp [hloop], by simp [hloop], (fun hs => by cases hs), (fun hs => by cases hs),
      fun ho => absurd ho hover, fun _ => hopen, by simp [hcloses]⟩

theorem Inv.submit_other (h : Inv w) (hl : w.loop = .submitting) (hc : w.conns[k]? = some c)
    (hk : k ≠ w.pool.results.length) :
    Tracked w.submit.loop w.submit.pool w.submit.files k c := by
  have ht := h.tracked k c hc
  refine ⟨⟨fun he => absurd (ht.accepted.1 he).2 hk, fun he => ?_⟩, ⟨fun he => ?_, fun he => ?_⟩,
    fun hs => getElem?_concat_iff.2 (.inl (ht.served hs)), ht.inside, ht.ended, ht.opened,
    ht.closes⟩
  · rcases w.submit_loop with hn | hn <;> rw [hn] at he <;> cases he.1
  · have := ht.refused.1 he
    rw [hl] at this
    cases this
  · rcases w.submit_loop with hn | hn <;> rw [hn] at he <;> cases he
    exact absurd rfl hk

theorem Inv.submit (h : Inv w) (hl : w.loop = .submitting) : Inv w.submit := by
  obtain ⟨hlength, c, hc, hstage⟩ := h.pending hl
  have hfree : w.submit.loop ≠ .submitting ∧ w.submit.loop.flagDown = false := by
    rcases w.submit_loop with hn | hn <;> simp [hn, Loop.flagDown]
  have hno : w.submit.loop.flagDown ≠ true := by simp [hfree.2]
  refine ⟨fun j c' hj => ?_, fun fd => ?_, ?_, fun j hj => ?_, fun hf => absurd hf hno,
    fun hs => absurd (Loop.flagDown_of_swept hs) hno, fun hr => absurd (by rw [hr]; rfl) hno⟩
  · rcases getElem?_modify_iff.1 hj with ⟨rfl, y, hy, rfl⟩ | ⟨hjk, hj⟩
    · rw [hc] at hy
      cases hy
      exact h.submit_here hc hstage
    · exact h.submit_other hl hj hjk
  · -- neither stage of the connection is listed
    refine (h.active fd).trans (exists_congr fun j => exists_congr fun c' => ?_)
    refine ⟨fun hrest => ⟨getElem?_modify_iff.2 (.inr ⟨?_, hrest.1⟩), hrest.2⟩, fun hrest => ?_⟩
    · rintro rfl
      have hj := hrest.1
      rw [hc] at hj
      cases hj
      rw [hstage] at hrest
      cases hrest.2.2
    · rcases getElem?_modify_iff.1 hrest.1 with ⟨rfl, y, hy, rfl⟩ | ⟨-, hj⟩
      · have hlist := hrest.2.2
        simp only at hlist
        split at hlist <;> cases hlist
      · exact ⟨hj, hrest.2⟩
  · have hresults : w.submit.pool.results.length = w.pool.results.length + 1 :=
      List.length_append ..
    rw [hresults, if_neg hfree.1, ← hlength]
    exact List.length_modify ..
  · refine Nat.lt_of_lt_of_eq ?_ (List.length_modify ..).symm
    rcases w.submit_loop with hn | hn <;> rw [hn] at hj <;> cases hj
    omega

theorem shutdown_eq (w : World) (k : Nat) (c : Conn) :
    ∃ shut, w.shutdown k c = { c with shut } := by
  unfold shutdown
  split
  · exact ⟨_, rfl⟩
  · exact ⟨c.shut, rfl⟩

theorem getElem?_shutdown {j : Nat} {c' : Conn} :
    w.shutdownActiveConnections.conns[j]? = some c' ↔
      ∃ c, w.conns[j]? = some c ∧ w.shutdown j c = c' := by
  simp only [shutdownActiveConnections, List.getElem?_mapIdx, Option.map_eq_some_iff]

theorem Inv.sweep (h : Inv w) (hl : w.loop = .sweeping) :
    Inv { w.shutdownActiveConnections with loop := .draining } := by
  refine ⟨fun j c' hj => ?_, fun fd => ?_, ?_, (fun j hj => by cases hj),
    fun _ => h.flag (by rw [hl]; rfl), fun _ c' hm hstage => ?_, (fun hr => by cases hr)⟩
  · obtain ⟨c, hc, rfl⟩ := getElem?_shutdown.1 hj
    have ht : Tracked .draining w.pool w.files j c :=
      (h.tracked j c hc).reloop (by simp [hl]) (by simp [hl])
    obtain ⟨shut, hs⟩ := w.shutdown_eq j c
    rw [hs]
    exact ⟨ht.accepted, ht.refused, ht.served, ht.inside, ht.ended, ht.opened, ht.closes⟩
  · refine (h.active fd).trans (exists_congr fun j => ?_)
    constructor
    · rintro ⟨c, hc, hfd, hlist⟩
      obtain ⟨shut, hs⟩ := w.shutdown_eq j c
      exact ⟨_, getElem?_shutdown.2 ⟨c, hc, hs⟩, hfd, hlist⟩
    · rintro ⟨c', hc', hfd, hlist⟩
      obtain ⟨c, hc, rfl⟩ := getElem?_shutdown.1 hc'
      obtain ⟨shut, hs⟩ := w.shutdown_eq j c
      rw [hs] at hfd hlist
      exact ⟨c, hc, hfd, hlist⟩
  · have := h.length
    rw [hl] at this
    exact (List.length_mapIdx ..).trans this
  · obtain ⟨j, hj⟩ := List.mem_iff_getElem?.1 hm
    obtain ⟨c, hc, rfl⟩ := getElem?_shutdown.1 hj
    have hc_stage : c.stage = .receiving := by
      obtain ⟨shut, hs⟩ := w.shutdown_eq j c
      rwa [hs] at hstage
    have hlisted := (h.active c.fd).2 ⟨j, c, hc, rfl, by rw [hc_stage]; rfl⟩
    have hfile := (h.tracked j c hc).opened (by simp [hc_stage])
    have hany : (w.activeConnections.any fun fd => w.files fd == some (.connection j)) = true :=
      List.any_eq_true.2 ⟨c.fd, hlisted, by simp [hfile]⟩
    rw [shutdown, if_pos hany]

/-! ### Runs -/

theorem Inv.turn {loop : Loop} {running : Bool} (h : Inv w) (hfrom : w.loop.free = true)
    (hto : loop.free = true ∧ loop.flagDown = false) : Inv { w with running, loop } := by
  have hno : loop.flagDown ≠ true := by simp [hto.2]
  refine h.goto hfrom hto.1 (fun hf => absurd hf hno)
    (fun hs => absurd (Loop.flagDown_of_swept hs) hno) fun hr => ?_
  subst hr
  exact absurd rfl hno

theorem Run.inv {maxQueuedTasks : Nat} (hs : Run w w') (hpool : Ledger maxQueuedTasks w.pool)
    (h : Inv w) : Inv w' := by
  cases hs with
  | begin hl => exact h.turn (by rw [hl]; rfl) ⟨rfl, rfl⟩
  | test hl =>
    apply h.turn (by rw [hl]; rfl)
    split <;> exact ⟨rfl, rfl⟩
  | poll result hl =>
    apply h.turn (by rw [hl]; rfl)
    cases result with
    | interrupted | failed => exact ⟨rfl, rfl⟩
    | ready listening =>
      simp only [afterPoll]
      split
      · exact ⟨rfl, rfl⟩
      · split <;> exact ⟨rfl, rfl⟩
  | accept hl hfd => exact h.accept hpool hl hfd
  | acceptFailed transient hl =>
    apply h.turn (by rw [hl]; rfl)
    split <;> exact ⟨rfl, rfl⟩
  | submit hl => exact h.submit hl
  | @refuse k c hl hc =>
    have hstage := (h.tracked k c hc).refused.2 hl
    have hopen : c.stage ≠ .closed := by simp [hstage]
    refine h.close hc hopen (fun fd => (and_iff_left_of_imp fun hfd he => ?_).symm) (.inr ⟨hl, rfl⟩)
    -- a registered number belongs to one connection, and this one was never registered
    obtain ⟨j, c', hj, hfd', hlist⟩ := (h.active fd).1 hfd
    have hjk := h.owner hc hj hopen (Stage.ne_closed_of_listed hlist) (hfd'.trans he)
    subst hjk
    rw [hc] at hj
    cases hj
    rw [hstage] at hlist
    cases hlist
  | clearFlag hl =>
    exact h.goto (by rw [hl]; rfl) rfl (fun _ => rfl) (fun hs => by cases hs)
      (fun hr => by cases hr)
  | sweep hl => exact h.sweep hl
  | shutdown hl =>
    have hdrain : Inv { w with pool := w.pool.shutdown } :=
      h.onPool rfl (fun _ _ _ _ => id) (fun _ _ _ => .inl) (List.mem_append_left _)
    refine hdrain.goto (by simp [hl, Loop.free]) rfl (fun _ => h.flag ?_) (fun _ => ?_)
      fun hr => by cases hr
    all_goals
      simp only [hl]
      rfl
  | drained hl hr =>
    exact h.goto (by rw [hl]; rfl) rfl (fun _ => h.flag (by rw [hl]; rfl))
      (fun _ => by rw [hl]; rfl) fun _ => hr

theorem Inv.moveInside {stage : Stage} (h : Inv w) (hc : w.conns[k]? = some c)
    (hfrom : c.stage.inside = true) (hto : stage.listed = true)
    (hrecv : stage = .receiving → w.running = true) : Inv (w.move k stage) := by
  have hlisted := Stage.listed_of_inside hfrom
  have hne : c.stage ≠ .thrown := fun he => by rw [he] at hfrom; cases hfrom
  have hmem : c.fd ∈ w.activeConnections := (h.active _).2 ⟨k, c, hc, rfl, hlisted⟩
  refine h.move hc (Stage.served_of_listed hlisted) hne hto ((h.tracked k c hc).inside hfrom)
    (fun fd => (or_iff_left_of_imp fun he => ?_).symm) hrecv
  rwa [he]

theorem Serve.inv (hs : Serve k c w w') (hrun : .running k ∈ w.pool.workers)
    (hc : w.conns[k]? = some c) (h : Inv w) : Inv w' := by
  cases hs with
  | register hstage =>
    refine h.move hc (by rw [hstage]; rfl) (by simp [hstage]) rfl hrun (fun fd => ?_)
      fun he => by cases he
    rw [List.mem_insert_iff, or_comm]
  | check hstage =>
    apply h.moveInside hc (by rw [hstage]; rfl)
    · split <;> rfl
    · split <;> exact fun he => by cases he
  | handle hm =>
    obtain ⟨hfrom, hto, hrecv⟩ := hm.stages
    exact h.moveInside hc hfrom (Stage.listed_of_inside hto) hrecv
  | throw hm =>
    refine h.moveInside hc ?_ rfl fun he => by cases he
    cases hstage : c.stage <;> rw [hstage] at hm <;> first | rfl | cases hm
  | close hstage =>
    refine h.close hc (by simp [hstage]) (fun fd => ?_) (.inl ⟨hstage, rfl⟩)
    rw [List.mem_filter, bne_iff_ne]

theorem Inv.taskEnds {pool : ThreadPool.System} {l r : List Worker} {worker : Worker} (h : Inv w)
    (hw : w.pool.workers = l ++ .running k :: r) (hc : w.conns[k]? = some c)
    (hstage : c.stage = .closed ∨ c.stage = .thrown) (hresults : pool.results = w.pool.results)
    (hworkers : pool.workers = l ++ worker :: r) (hshutdowns : pool.shutdowns = w.pool.shutdowns)
    (hover : ∀ j, j ∈ pool.finished ∨ worker = .catching j → j ∈ w.pool.finished ∨ j = k) :
    Inv { w with pool } := by
  have hself : ∀ {j c'}, w.conns[j]? = some c' → j = k → c' = c := by
    rintro j c' hj rfl
    rw [hc] at hj
    exact (Option.some.inj hj).symm
  refine h.onPool hresults (fun j c' hj hin hm => ?_) (fun j c' hj hk => ?_) fun hr => ?_
  · rw [hworkers]
    refine ThreadPool.mem_replace (hw ▸ hm) (fun he => ?_) worker
    rw [hself hj (Worker.running.inj he)] at hin
    rcases hstage with he | he <;> rw [he] at hin <;> cases hin
  · have hcatch : .catching j ∈ pool.workers →
        .catching j ∈ w.pool.workers ∨ worker = .catching j := by
      intro hm
      rw [hworkers] at hm
      refine or_iff_not_imp_right.2 fun hne => hw ▸ ThreadPool.mem_replace hm (Ne.symm hne) _
    have hnew : j ∈ pool.finished ∨ worker = .catching j → j ∈ w.pool.finished ∨
        c'.stage = .closed ∨ c'.stage = .thrown := by
      intro hk
      refine (hover j hk).imp id fun he => ?_
      rwa [hself hj he]
    rcases hk with hk | hk
    · exact (hnew (.inl hk)).imp .inl id
    · rcases hcatch hk with hk | hk
      · exact .inl (.inr hk)
      · exact (hnew (.inr hk)).imp .inl id
  · rwa [hshutdowns]

theorem Step.inv {maxQueuedTasks : Nat} (hs : Step w w') (hpool : Ledger maxQueuedTasks w.pool)
    (h : Inv w) : Inv w' := by
  cases hs with
  | run hs => exact Run.inv hs hpool h
  | serve hrun hc hs => exact Serve.inv hs hrun hc h
  | stop =>
    exact ⟨h.tracked, h.active, h.length, h.refusing, fun _ => rfl, h.swept, h.drained⟩
  | wake =>
    exact ⟨h.tracked, h.active, h.length, h.refusing, h.flag, h.swept, h.drained⟩
  | taskReturn hw hc hstage =>
    refine h.taskEnds hw hc (.inl hstage) rfl rfl rfl fun j hj => ?_
    simpa using hj
  | taskThrow hw hc hstage =>
    refine h.taskEnds hw hc (.inr hstage) rfl rfl rfl fun j hj => ?_
    simpa [eq_comm] using hj
  | work hs hin =>
    obtain ⟨hresults, hrunning, hover, hreturned⟩ := hs.keeps_tasks hin
    exact h.onPool hresults (fun k _ _ _ => hrunning k) (fun k _ _ hk => .inl (hover k hk))
      hreturned
  | wakeup hw =>
    refine h.onPool rfl (fun k _ _ _ hm => ThreadPool.mem_replace (hw ▸ hm) (by simp) _)
      (fun k _ _ => fun hk => .inl (hk.imp_right fun hm => ?_)) id
    exact hw ▸ ThreadPool.mem_replace hm (by simp) _
  | «open» hfd => exact h.onFiles fun k he => by rw [hfd] at he; cases he
  | closeForeign hfd => exact h.onFiles fun k he => by rw [hfd] at he; cases he

theorem Step.pool (hs : Step w w') : w'.pool = w.pool ∨
    ThreadPool.System.Call w.pool w'.pool ∨ ThreadPool.System.Work w.pool w'.pool := by
  cases hs with
  | run hs =>
    cases hs with
    | submit => exact .inr (.inl (.submit _))
    | shutdown => exact .inr (.inl (.shutdown _))
    | _ => exact .inl rfl
  | serve _ _ hs => cases hs <;> exact .inl rfl
  | taskReturn hw => exact .inr (.inr (.taskReturn hw))
  | taskThrow hw => exact .inr (.inr (.taskThrow hw))
  | work hs => exact .inr (.inr hs)
  | wakeup hw => exact .inr (.inl (.wakeup hw))
  | _ => exact .inl rfl

variable {threadCount maxQueuedTasks : Nat}

theorem Reachable.pool (h : Reachable threadCount maxQueuedTasks w) :
    w.pool.Reachable threadCount maxQueuedTasks := by
  induction h with
  | start => exact .start
  | step _ hs ih =>
    rcases hs.pool with he | hc | hs
    · rwa [he]
    · exact ih.call hc
    · exact ih.work hs

theorem Reachable.inv (h : Reachable threadCount maxQueuedTasks w) : Inv w := by
  induction h with
  | start =>
    refine ⟨(fun k c hc => by cases hc), fun fd => ⟨(fun hm => by cases hm), ?_⟩, rfl,
      (fun k hk => by cases hk), (fun hf => by cases hf), (fun hs => by cases hs),
      (fun hr => by cases hr)⟩
    rintro ⟨k, c, hc, -⟩
    cases hc
  | step hr hs ih => exact hs.inv hr.pool.inv.1 ih

/-- Behind the shutdown of the pool every connection is over, one way or the other. -/
theorem Reachable.ended (h : Reachable threadCount maxQueuedTasks w) (hl : w.loop = .drained)
    (hc : w.conns[k]? = some c) : c.stage = .closed ∨ c.stage = .thrown := by
  have ht := h.inv.tracked k c hc
  obtain ⟨hledger, hthreads, -⟩ := h.pool.inv
  have hgone := hthreads.returned (h.inv.drained hl)
  have hserved : c.stage.served = true → c.stage = .closed ∨ c.stage = .thrown := by
    intro hs
    apply ht.ended
    rw [← (hledger.all_finished hthreads hgone).1.mem_iff]
    exact .inl (ThreadPool.System.mem_accepted.2 (ht.served hs))
  have haccepted := ht.accepted
  have hrefused := ht.refused
  cases hstage : c.stage with
  | accepted =>
    have := (haccepted.1 hstage).1
    rw [hl] at this
    cases this
  | refused =>
    have := hrefused.1 hstage
    rw [hl] at this
    cases this
  | closed => exact .inl rfl
  | thrown => exact .inr rfl
  | _ => exact hstage ▸ hserved (by rw [hstage]; rfl)

/-- A number in `activeConnections_` belongs to one connection, which is open. -/
theorem Inv.exists_owner (h : Inv w) {fd : Nat} (hfd : fd ∈ w.activeConnections) :
    ∃ k c, w.conns[k]? = some c ∧ c.fd = fd ∧ c.stage.listed = true ∧
      w.files fd = some (.connection k) ∧
      ∀ j c', w.conns[j]? = some c' → c'.fd = fd → c'.stage ≠ .closed → j = k := by
  obtain ⟨k, c, hc, rfl, hlist⟩ := (h.active fd).1 hfd
  have hopen := Stage.ne_closed_of_listed hlist
  refine ⟨k, c, hc, rfl, hlist, (h.tracked k c hc).opened hopen, fun j c' hj he hopen' => ?_⟩
  exact h.owner hc hj hopen hopen' he

/-- An exception leaves its mark for good. -/
theorem Step.thrown (hs : Step w w') (h : Inv w) (hc : w.conns[k]? = some c)
    (hstage : c.stage = .thrown) : ∃ c', w'.conns[k]? = some c' ∧ c'.stage = .thrown := by
  have hother : ∀ {j : Nat} {c₀ : Conn} {f : Conn → Conn}, w.conns[j]? = some c₀ →
      c₀.stage ≠ .thrown → ∃ c', (w.conns.modify j f)[k]? = some c' ∧ c'.stage = .thrown := by
    intro j c₀ f hj hne
    refine ⟨c, getElem?_modify_iff.2 (.inr ⟨?_, hc⟩), hstage⟩
    rintro rfl
    rw [hc] at hj
    cases hj
    exact hne hstage
  cases hs with
  | run hs =>
    cases hs with
    | accept => exact ⟨c, getElem?_concat_iff.2 (.inl hc), hstage⟩
    | submit hl =>
      obtain ⟨-, c₀, hj, ha⟩ := h.pending hl
      exact hother hj (by simp [ha])
    | @refuse j c₀ hl hj =>
      have hr := (h.tracked j c₀ hj).refused.2 hl
      exact hother hj (by simp [hr])
    | sweep =>
      obtain ⟨shut, hs⟩ := w.shutdown_eq k c
      exact ⟨_, getElem?_shutdown.2 ⟨c, hc, hs⟩, hstage⟩
    | _ => exact ⟨c, hc, hstage⟩
  | serve _ hj hs =>
    cases hs with
    | register hq => exact hother hj (by simp [hq])
    | check hq => exact hother hj (by simp [hq])
    | handle hm =>
      refine hother hj fun he => ?_
      have := hm.stages.1
      rw [he] at this
      cases this
    | throw hm =>
      refine hother hj fun he => ?_
      rw [he] at hm
      cases hm
    | close hq => exact hother hj (by simp [hq])
  | _ => exact ⟨c, hc, hstage⟩

/-! ### Shutdown -/

def standardStreams (fd : Nat) : Option File := if fd < 3 then some .foreign else none

/-- One worker, and one client that it waits for in `recv`. -/
def waiting : World where
  pool := {
    pool := { maxQueuedTasks := 0 }
    workers := [.running 0]
    notifies := 1
    results := [true]
    started := [0] }
  running := true
  loop := .testing
  conns := [{ fd := 3, stage := .receiving }]
  activeConnections := [3]
  files := Function.update standardStreams 3 (some (.connection 0))

theorem reachable_waiting : Reachable 1 0 waiting := by
  have hfiles : ∀ fd k, standardStreams fd ≠ some (.connection k) := by
    intro fd k
    unfold standardStreams
    split <;> simp
  have h : Reachable 1 0 _ := .start hfiles
  have h := h.step (.run (.begin rfl))
  have h := h.step (.run (.test rfl))
  have h := h.step (.run (.poll (.ready true) rfl))
  have h := h.step (.run (@Run.accept _ 3 rfl rfl))
  have h := h.step (.run (.submit rfl))
  have h := h.step (.work (@ThreadPool.System.Work.enter _ [] [] rfl) (by decide))
  have h := h.step (.serve (.head _) rfl (.register rfl))
  have h := h.step (.serve (.head _) rfl (.check rfl))
  have h := h.step (.serve (.head _) rfl (.handle .start))
  exact h.step (.serve (.head _) rfl (.handle (.proceed rfl)))

/-- Shutdown reaches every connection a worker waits in, and nothing else: behind the sweep a
`recv` is on a socket that has been shut down, and what the sweep shuts down is the open socket
of the one worker that serves it. Numbers are reused as soon as they are free. -/
theorem shutdown_interrupts_exactly (h : Reachable threadCount maxQueuedTasks w)
    (hreturn : ∀ c ∈ w.conns, c.stage ≠ .thrown) :
    (w.loop.swept = true → ∀ k c, w.conns[k]? = some c → c.stage = .receiving →
      w.files c.fd = some (.connection k) ∧ c.shut = true) ∧
    (w.loop = .sweeping → ∀ fd ∈ w.activeConnections, ∃ k c, w.conns[k]? = some c ∧ c.fd = fd ∧
      w.files fd = some (.connection k) ∧ c.stage.inside = true ∧
      w.pool.workers.count (.running k) = 1 ∧
      ∀ j c', w.conns[j]? = some c' → c'.fd = fd → c'.stage ≠ .closed → j = k) := by
  have hinv := h.inv
  refine ⟨fun hs k c hc hstage => ⟨?_, ?_⟩, fun _ fd hfd => ?_⟩
  · exact (hinv.tracked k c hc).opened (by simp [hstage])
  · exact hinv.swept hs c (List.mem_iff_getElem?.2 ⟨k, hc⟩) hstage
  · obtain ⟨k, c, hc, he, hlist, hfile, honly⟩ := hinv.exists_owner hfd
    have hinside := Stage.inside_of_listed hlist (hreturn c (List.mem_iff_getElem?.2 ⟨k, hc⟩))
    have hcount := h.pool.inv.1.count_running ((hinv.tracked k c hc).inside hinside)
    exact ⟨k, c, hc, he, hfile, hinside, hcount, honly⟩

/-- `stop` while the worker waits: the sweep finds its socket, and the worker is woken. -/
theorem shutdown_interrupts_exactly_waiting :
    (∃ w, Reachable 1 0 w ∧ w.loop = .sweeping ∧ w.activeConnections = [3] ∧
      ∃ k c, w.conns[k]? = some c ∧ c.fd = 3 ∧ w.files 3 = some (.connection k) ∧
        c.stage.inside = true ∧ w.pool.workers.count (.running k) = 1) ∧
    ∃ w c, Reachable 1 0 w ∧ w.loop.swept = true ∧ w.conns = [c] ∧ c.stage = .receiving ∧
      c.shut = true := by
  have h := reachable_waiting.step (.stop _)
  have h := h.step (.run (.test rfl))
  have h := h.step (.run (.clearFlag rfl))
  have h' := h.step (.run (.sweep rfl))
  refine ⟨⟨_, h, rfl, rfl, ?_⟩, _, _, h', rfl, rfl, rfl, ?_⟩
  · obtain ⟨k, c, hc, hfd, hfile, hin, hcount, -⟩ :=
      (shutdown_interrupts_exactly h (by decide)).2 rfl 3 (.head _)
    exact ⟨k, c, hc, hfd, hfile, hin, hcount⟩
  · exact ((shutdown_interrupts_exactly h' (by decide)).1 rfl 0 _ rfl rfl).2

/-- No descriptor is closed twice. Every one is closed by the time `run` has shut the pool down,
and registered only while a worker serves it, exactly when no `handleConnection` has ended by an
exception. -/
theorem closed_once_iff (h : Reachable threadCount maxQueuedTasks w) :
    (∀ c ∈ w.conns, c.closes ≤ 1) ∧
    (((∀ fd ∈ w.activeConnections, ∃ k c, w.conns[k]? = some c ∧ c.fd = fd ∧
          c.stage.inside = true ∧ .running k ∈ w.pool.workers) ∧
        (w.loop = .drained → ∀ c ∈ w.conns, c.closes = 1)) ↔
      ∀ c ∈ w.conns, c.stage ≠ .thrown) := by
  have hinv := h.inv
  refine ⟨fun c hm => ?_, fun ⟨hserved, _⟩ c hm hstage => ?_, fun hreturn => ⟨fun fd hfd => ?_,
    fun hl c hm => ?_⟩⟩
  · obtain ⟨k, hc⟩ := List.mem_iff_getElem?.1 hm
    rw [(hinv.tracked k c hc).closes]
    split <;> omega
  · -- the number is still registered, and no open connection but this one has it
    obtain ⟨k, hc⟩ := List.mem_iff_getElem?.1 hm
    have hlist : c.stage.listed = true := by rw [hstage]; rfl
    obtain ⟨j, c', hj, hfd, hin, -⟩ := hserved c.fd ((hinv.active _).2 ⟨k, c, hc, rfl, hlist⟩)
    have hopen' := Stage.ne_closed_of_listed (Stage.listed_of_inside hin)
    have hjk := hinv.owner hc hj (by simp [hstage]) hopen' hfd
    subst hjk
    rw [hc] at hj
    cases hj
    rw [hstage] at hin
    cases hin
  · obtain ⟨k, c, hc, he, hlist, -⟩ := hinv.exists_owner hfd
    have hin := Stage.inside_of_listed hlist (hreturn c (List.mem_iff_getElem?.2 ⟨k, hc⟩))
    exact ⟨k, c, hc, he, hin, (hinv.tracked k c hc).inside hin⟩
  · obtain ⟨k, hc⟩ := List.mem_iff_getElem?.1 hm
    have hclosed := (h.ended hl hc).resolve_right (hreturn c hm)
    rw [(hinv.tracked k c hc).closes, if_pos hclosed]

/-- The worker has done with its client, whose task counted `exceptions`. -/
def served (c : Conn) (active threw : List Nat) (exceptions : Nat) (files : Nat → Option File) :
    World where
  pool := {
    pool := { maxQueuedTasks := 0, taskExceptions := exceptions }
    workers := [.ready]
    notifies := 1
    results := [true]
    started := [0]
    finished := [0]
    threw }
  running := true
  loop := .testing
  conns := [c]
  activeConnections := active
  files := files

theorem reachable_drained {c : Conn} {active threw : List Nat} {exceptions : Nat}
    {files : Nat → Option File}
    (h : Reachable 1 0 (served c active threw exceptions files)) :
    ∃ w, Reachable 1 0 w ∧ w.loop = .drained ∧ w.pool.pool.taskExceptions = exceptions ∧
      w.pool.workers = [.exited] ∧ w.activeConnections = active ∧ w.files = files ∧
      w.conns = (served c active threw exceptions files).shutdownActiveConnections.conns := by
  have h := h.step (.stop _)
  have h := h.step (.run (.test rfl))
  have h := h.step (.run (.clearFlag rfl))
  have h := h.step (.run (.sweep rfl))
  have h := h.step (.run (.shutdown rfl))
  have h := h.step (.work (@ThreadPool.System.Work.notifyAll _ [] [] rfl) (Nat.le_refl 0))
  have h := h.step (.work (@ThreadPool.System.Work.enter _ [] [] rfl) (Nat.le_refl 0))
  have h := h.step (.work (@ThreadPool.System.Work.join _ 0 [] [] rfl rfl) (Nat.le_refl 0))
  have h := h.step (.work (@ThreadPool.System.Work.shutdownReturn _ 1 [] [] rfl (Nat.le_refl 1))
    (Nat.le_refl 0))
  have h := h.step (.run (.drained rfl (.head _)))
  exact ⟨_, h, rfl, rfl, rfl, rfl, rfl, rfl⟩

/-- A client that hangs up: its descriptor is closed, once, before `run` returns. -/
theorem closed_once_iff_hangup : ∃ w, Reachable 1 0 w ∧ w.loop = .drained ∧
    w.conns = [{ fd := 3, stage := .closed, closes := 1 }] ∧ ∀ c ∈ w.conns, c.closes = 1 := by
  have h := reachable_waiting.step (.serve (.head _) rfl (.handle .disconnected))
  have h := h.step (.serve (.head _) rfl (.close rfl))
  have h := h.step (@Step.taskReturn _ 0 _ [] [] rfl rfl rfl)
  obtain ⟨w, h, hl, -, -, -, -, hconns⟩ := reachable_drained h
  have hconns : w.conns = [{ fd := 3, stage := .closed, closes := 1 }] := hconns
  exact ⟨w, h, hl, hconns, ((closed_once_iff h).2.2 (by rw [hconns]; decide)).2 hl⟩

/-- A command that throws: the worker lives on and `run` returns, with the descriptor open and
still registered. -/
theorem closed_once_throw : ∃ w, Reachable 1 0 w ∧ w.loop = .drained ∧
    w.pool.pool.taskExceptions = 1 ∧ w.pool.workers = [.exited] ∧ w.activeConnections = [3] ∧
    w.files 3 = some (.connection 0) ∧
    w.conns = [{ fd := 3, stage := .thrown, shut := true, closes := 0 }] := by
  have h := reachable_waiting.step (.serve (.head _) rfl (.handle .received))
  have h := h.step (.serve (.head _) rfl (.throw rfl))
  have h := h.step (@Step.taskThrow _ 0 _ [] [] rfl rfl rfl)
  have h := h.step (.work (@ThreadPool.System.Work.count _ 0 [] [] rfl) (by decide))
  obtain ⟨w, h, hl, hexceptions, hworkers, hactive, hfiles, hconns⟩ := reachable_drained h
  exact ⟨w, h, hl, hexceptions, hworkers, hactive, by rw [hfiles]; rfl, hconns⟩

end World

end VCache.Server
