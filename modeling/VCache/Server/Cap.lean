import VCache.Server.Framing

/-!
# The request cap

The handler measures what is left after it has cut out the complete lines. A line that is
over the cap is refused if one of the chunks ends inside it with more than the cap received,
and executed if its line feed comes first.
-/

namespace VCache

open Lib

namespace Server

variable {σ : Type} {maxRequestBytes : Nat} {exec : Nat → σ → Bytes → σ × Option Bytes}
  {start : σ} {stream : Bytes} {h : Handler σ}

/-- The handler has cut out all lines and is back at `recv`, or hangs up on a rest that is
over the cap. -/
def Drained (maxRequestBytes : Nat) (h : Handler σ) : Prop :=
  lines Ascii.lf h.pending = [] ∧
    ((h.phase = .receiving ∧ (rest Ascii.lf h.pending).length ≤ maxRequestBytes) ∨
      ∃ left, h.phase = .sending left true ∧ maxRequestBytes < (rest Ascii.lf h.pending).length)

/-- The inner loop stops when it has drained the buffer, or at a reply with one line less in
it. -/
theorem Consumed.cutLines : ∀ {fuel : Nat} {h : Handler σ}, h.pending.length < fuel →
    Consumed stream h →
    Consumed stream (h.cutLines maxRequestBytes exec fuel) ∧
      (Drained maxRequestBytes (h.cutLines maxRequestBytes exec fuel) ∨
        (∃ left, (h.cutLines maxRequestBytes exec fuel).phase = .sending left false) ∧
          (lines Ascii.lf (h.cutLines maxRequestBytes exec fuel).pending).length <
            (lines Ascii.lf h.pending).length)
  | fuel + 1, h, hf, hc => by
    obtain ⟨hex, hp⟩ := hc
    rcases split_first Ascii.lf h.pending with hn | ⟨line, after, hn, hpend⟩
    · simp only [Handler.cutLines, cutFirst_eq_none hn]
      have hl : lines Ascii.lf h.pending = [] := lines_of_notMem hn
      by_cases hgt : h.pending.length > maxRequestBytes
      · rw [if_pos hgt]
        refine ⟨⟨hex, hp⟩, .inl ⟨hl, .inr ⟨_, rfl, ?_⟩⟩⟩
        rw [rest_of_notMem hn]
        exact hgt
      · rw [if_neg hgt]
        refine ⟨⟨hex, hp⟩, .inl ⟨hl, .inl ⟨rfl, ?_⟩⟩⟩
        rw [rest_of_notMem hn]
        exact Nat.le_of_not_lt hgt
    · have hlines : lines Ascii.lf h.pending = line :: lines Ascii.lf after := by
        rw [hpend, lines_line hn]
      rw [hlines] at hex
      rw [hpend, rest_line hn] at hp
      have hlen : after.length < fuel := length_after_lt hpend hf
      rw [hlines, List.length_cons]
      simp only [Handler.cutLines, hpend, cutFirst_line hn, Handler.executeLine]
      have hnext : Consumed stream { h with
          state := (exec h.executed.length h.state line).1
          pending := after
          executed := h.executed ++ [line] } := ⟨by simpa using hex, hp⟩
      cases hr : (exec h.executed.length h.state line).2 with
      | none =>
        obtain ⟨hc, hstop⟩ := Consumed.cutLines hlen hnext
        exact ⟨hc, hstop.imp_right fun hsend => ⟨hsend.1, Nat.lt_succ_of_lt hsend.2⟩⟩
      | some response => exact ⟨⟨hnext.executed, hp⟩, .inr ⟨⟨_, rfl⟩, Nat.lt_succ_self _⟩⟩

theorem Consumed.cut (hc : Consumed stream h) :
    Consumed stream (h.cut maxRequestBytes exec) ∧
      (Drained maxRequestBytes (h.cut maxRequestBytes exec) ∨
        (∃ left, (h.cut maxRequestBytes exec).phase = .sending left false) ∧
          (lines Ascii.lf (h.cut maxRequestBytes exec).pending).length <
            (lines Ascii.lf h.pending).length) :=
  hc.cutLines (Nat.lt_succ_self _)

theorem cutLines_not_finished : ∀ (fuel : Nat) {h : Handler σ}, h.phase ≠ .finished →
    (h.cutLines maxRequestBytes exec fuel).phase ≠ .finished
  | 0, _, hphase => hphase
  | fuel + 1, h, hphase => by
    unfold Handler.cutLines
    split
    · split <;> simp
    next line after _ =>
      simp only [Handler.executeLine]
      cases hr : (exec h.executed.length h.state line).2 with
      | none => exact cutLines_not_finished fuel hphase
      | some response => simp

/-- Where a handler can be found. -/
def Found (maxRequestBytes : Nat) (h : Handler σ) : Prop :=
  Drained maxRequestBytes h ∨ (∃ left, h.phase = .sending left false) ∨ h.phase = .finished

theorem Found.receiving (hf : Found maxRequestBytes h) (hphase : h.phase = .receiving) :
    lines Ascii.lf h.pending = [] ∧ (rest Ascii.lf h.pending).length ≤ maxRequestBytes := by
  rcases hf with ⟨hl, ⟨-, hle⟩ | ⟨left, hleft, -⟩⟩ | ⟨left, hleft⟩ | hfin
  · exact ⟨hl, hle⟩
  · rw [hphase] at hleft; cases hleft
  · rw [hphase] at hleft; cases hleft
  · rw [hphase] at hfin; cases hfin

theorem Found.send {left left' sent : Bytes} {drop : Bool} (hf : Found maxRequestBytes h)
    (hphase : h.phase = .sending left drop) :
    Found maxRequestBytes { h with sent, phase := .sending left' drop } := by
  cases drop with
  | false => exact .inr (.inl ⟨left', rfl⟩)
  | true =>
    rcases hf with ⟨hl, ⟨hrec, -⟩ | ⟨l, -, hgt⟩⟩ | ⟨l, hleft⟩ | hfin
    · rw [hphase] at hrec; cases hrec
    · exact .inl ⟨hl, .inr ⟨left', rfl, hgt⟩⟩
    · rw [hphase] at hleft; cases hleft
    · rw [hphase] at hfin; cases hfin

theorem Consumed.found (hc : Consumed stream h) :
    Consumed stream (h.cut maxRequestBytes exec) ∧
      Found maxRequestBytes (h.cut maxRequestBytes exec) := by
  obtain ⟨hcut, hstop⟩ := hc.cut
  exact ⟨hcut, hstop.imp_right fun hsend => .inl hsend.1⟩

theorem Serves.consumed {chunks : List Bytes} (hs : Serves maxRequestBytes exec start chunks h) :
    Consumed chunks.flatten h ∧ Found maxRequestBytes h := by
  induction hs with
  | start => exact ⟨⟨rfl, rfl⟩, .inl ⟨rfl, .inl ⟨rfl, Nat.zero_le _⟩⟩⟩
  | @receive chunks h chunk _ hphase _ _ ih =>
    obtain ⟨hc, hfound⟩ := ih
    rw [resume_received hphase, List.flatten_concat]
    exact (hc.receive (hfound.receiving hphase).1).found
  | @send chunks h left drop count _ hphase hle ih =>
    obtain ⟨hc, hfound⟩ := ih
    rw [resume_accepted hphase]
    by_cases hcount : count < left.length
    · simp only [if_pos hcount]
      exact ⟨⟨hc.executed, hc.pending⟩, hfound.send hphase⟩
    · simp only [if_neg hcount]
      cases drop with
      | true => exact ⟨⟨hc.executed, hc.pending⟩, .inr (.inr rfl)⟩
      | false => exact Consumed.found ⟨hc.executed, hc.pending⟩
  | @interrupted chunks h _ ih =>
    by_cases hphase : h.phase = .finished
    · have : h.resume maxRequestBytes exec .interrupted = h := by simp only [Handler.resume, hphase]
      rw [this]
      exact ih
    · rw [resume_interrupted hphase]
      exact ih

/-! ### Runs -/

/-- More than the cap has come of an unfinished line before all of `received` has: the
connection goes at that point. -/
def Refused (maxRequestBytes : Nat) (received : List Bytes) : Prop :=
  ∃ before after, after ≠ [] ∧ received = before ++ after ∧
    maxRequestBytes < (rest Ascii.lf before.flatten).length

theorem not_refused_of_concat {chunks : List Bytes} {chunk : Bytes}
    (hno : ¬ Refused maxRequestBytes (chunks ++ [chunk])) :
    ¬ Refused maxRequestBytes chunks ∧
      (rest Ascii.lf chunks.flatten).length ≤ maxRequestBytes := by
  constructor
  · rintro ⟨before, after, -, rfl, hgt⟩
    exact hno ⟨before, after ++ [chunk], by simp, by simp, hgt⟩
  · exact Nat.le_of_not_lt fun hgt => hno ⟨chunks, [chunk], by simp, rfl, hgt⟩

theorem Serves.not_refused {chunks : List Bytes}
    (hs : Serves maxRequestBytes exec start chunks h) : ¬ Refused maxRequestBytes chunks := by
  induction hs with
  | start =>
    rintro ⟨before, after, hne, he, -⟩
    exact hne (List.append_eq_nil_iff.1 he.symm).2
  | @receive chunks h chunk hs hphase _ _ ih =>
    rintro ⟨before, after, hne, he, hgt⟩
    obtain ⟨last, c, rfl⟩ := (List.eq_nil_or_concat' after).resolve_left hne
    rw [← List.append_assoc] at he
    obtain ⟨rfl, -⟩ := List.append_inj' he rfl
    cases last with
    | nil =>
      rw [List.append_nil] at hs
      obtain ⟨⟨-, hp⟩, hfound⟩ := hs.consumed
      obtain ⟨-, hle⟩ := hfound.receiving hphase
      rw [hp] at hle
      omega
    | cons a last => exact ih ⟨before, a :: last, List.cons_ne_nil _ _, rfl, hgt⟩
  | send _ _ _ ih => exact ih
  | interrupted _ ih => exact ih

theorem Serves.drains {chunks : List Bytes} {h : Handler σ}
    (hs : Serves maxRequestBytes exec start chunks h) (hphase : h.phase ≠ .finished) :
    ∃ h', Serves maxRequestBytes exec start chunks h' ∧ Drained maxRequestBytes h' := by
  obtain ⟨hc, hd | ⟨left, hleft⟩ | hfin⟩ := hs.consumed
  · exact ⟨h, hs, hd⟩
  · have hsend := hs.send hleft (Nat.le_refl _)
    rw [resume_accepted hleft] at hsend
    simp only [Nat.lt_irrefl, if_false, Bool.false_eq_true] at hsend
    obtain ⟨-, hd | ⟨⟨left', hleft'⟩, hlt⟩⟩ := (show Consumed chunks.flatten { h with
      sent := h.sent ++ left.take left.length
      phase := .sending (left.drop left.length) false } from ⟨hc.executed, hc.pending⟩).cut
    · exact ⟨_, hsend, hd⟩
    · exact hsend.drains (by rw [hleft']; simp)
  · exact absurd hfin hphase
termination_by (lines Ascii.lf h.pending).length
decreasing_by exact hlt

theorem exists_drained (exec : Nat → σ → Bytes → σ × Option Bytes) (start : σ)
    {received : List Bytes}
    (hchunks : ∀ chunk ∈ received, chunk ≠ [] ∧ chunk.length ≤ kReadChunkSize)
    (hno : ¬ Refused maxRequestBytes received) :
    ∃ h, Serves maxRequestBytes exec start received h ∧ Drained maxRequestBytes h := by
  induction received using List.reverseRecOn with
  | nil => exact ⟨_, .start, rfl, .inl ⟨rfl, Nat.zero_le _⟩⟩
  | append_singleton chunks chunk ih =>
    obtain ⟨hbefore, hle⟩ := not_refused_of_concat hno
    obtain ⟨h, hs, -, hend⟩ := ih (fun c hc => hchunks c (List.mem_append_left _ hc)) hbefore
    obtain ⟨⟨-, hp⟩, -⟩ := hs.consumed
    obtain ⟨hne, hlen⟩ := hchunks chunk (by simp)
    rcases hend with ⟨hphase, -⟩ | ⟨left, -, hgt⟩
    · apply (hs.receive hphase hne hlen).drains
      rw [resume_received hphase]
      apply cutLines_not_finished
      show h.phase ≠ .finished
      rw [hphase]
      simp
    · rw [hp] at hgt
      omega

theorem exists_hangup (exec : Nat → σ → Bytes → σ × Option Bytes) (start : σ)
    {received : List Bytes}
    (hchunks : ∀ chunk ∈ received, chunk ≠ [] ∧ chunk.length ≤ kReadChunkSize)
    (hgt : maxRequestBytes < (rest Ascii.lf received.flatten).length) :
    ∃ received' h left, received' <+: received ∧
      Serves maxRequestBytes exec start received' h ∧ h.phase = .sending left true := by
  by_cases hr : Refused maxRequestBytes received
  · obtain ⟨before, after, hne, he, hgt'⟩ := hr
    have hlt : before.length < received.length := by
      have := List.length_pos_iff.2 hne
      rw [he, List.length_append]
      omega
    have hpre : before <+: received := ⟨after, he.symm⟩
    obtain ⟨received', h, left, hpre', hrun⟩ :=
      exists_hangup exec start (fun c hc => hchunks c (hpre.subset hc)) hgt'
    exact ⟨received', h, left, hpre'.trans hpre, hrun⟩
  · obtain ⟨h, hs, -, hend⟩ := exists_drained exec start hchunks hr
    obtain ⟨⟨-, hp⟩, -⟩ := hs.consumed
    rcases hend with ⟨-, hle⟩ | ⟨left, hphase, -⟩
    · rw [hp] at hle
      omega
    · exact ⟨received, h, left, List.prefix_refl _, hs, hphase⟩
termination_by received.length

/-- A line that is executed is over the cap by less than a chunk. -/
theorem length_lt_of_not_refused {received : List Bytes}
    (hchunks : ∀ chunk ∈ received, chunk.length ≤ kReadChunkSize)
    (hno : ¬ Refused maxRequestBytes received) :
    ∀ line ∈ lines Ascii.lf received.flatten, line.length < maxRequestBytes + kReadChunkSize := by
  induction received using List.reverseRecOn with
  | nil => intro line hm; cases hm
  | append_singleton chunks chunk ih =>
    obtain ⟨hbefore, hle⟩ := not_refused_of_concat hno
    intro line hm
    rw [List.flatten_concat, lines_append, List.mem_append] at hm
    rcases hm with hm | hm
    · exact ih (fun c hc => hchunks c (List.mem_append_left _ hc)) hbefore line hm
    · have hlt := length_lt_of_mem_lines hm
      have hlen := hchunks chunk (by simp)
      rw [List.length_append] at hlt
      omega

/-! ### The cap -/

/-- No chunk brings the line feed of a line over the cap, unless the connection is gone by
then. -/
def Caught (maxRequestBytes : Nat) (chunks : List Bytes) : Prop :=
  ∀ received, received <+: chunks →
    Refused maxRequestBytes received ∨
      ∀ line ∈ lines Ascii.lf received.flatten, line.length ≤ maxRequestBytes

/-- The handler keeps to the cap just where the cuts let it. It is then the stream alone that
decides whether the connection is refused. Whatever the cuts, a line that is executed is
over the cap by less than one chunk. -/
theorem cap_holds_iff_caught (exec : Nat → σ → Bytes → σ × Option Bytes) (start : σ)
    (maxRequestBytes : Nat) {chunks : List Bytes}
    (hchunks : ∀ chunk ∈ chunks, chunk ≠ [] ∧ chunk.length ≤ kReadChunkSize) :
    ((∀ received h, received <+: chunks → Serves maxRequestBytes exec start received h →
        ∀ line ∈ h.executed, line.length ≤ maxRequestBytes) ↔ Caught maxRequestBytes chunks) ∧
    (Caught maxRequestBytes chunks →
      ((∃ received h left, received <+: chunks ∧ Serves maxRequestBytes exec start received h ∧
        h.phase = .sending left true) ↔ ¬ Fits Ascii.lf maxRequestBytes chunks.flatten)) ∧
    ∀ received h, received <+: chunks → Serves maxRequestBytes exec start received h →
      ∀ line ∈ h.executed, line.length < maxRequestBytes + kReadChunkSize := by
  have hsub : ∀ {received : List Bytes}, received <+: chunks →
      ∀ chunk ∈ received, chunk ≠ [] ∧ chunk.length ≤ kReadChunkSize :=
    fun hpre c hc => hchunks c (hpre.subset hc)
  have hexecuted : ∀ {received : List Bytes} {h : Handler σ},
      Serves maxRequestBytes exec start received h →
      ∀ line ∈ h.executed, line ∈ lines Ascii.lf received.flatten := by
    intro received h hs line hm
    rw [← hs.consumed.1.executed]
    exact List.mem_append_left _ hm
  refine ⟨⟨fun hcap received hpre => ?_, fun hcaught received h hpre hs line hm => ?_⟩,
    fun hcaught => ⟨?_, fun hfit => ?_⟩, fun received h hpre hs line hm => ?_⟩
  · by_cases hr : Refused maxRequestBytes received
    · exact .inl hr
    · obtain ⟨h, hs, hl, -⟩ := exists_drained exec start (hsub hpre) hr
      have hex := hs.consumed.1.executed
      rw [hl, List.append_nil] at hex
      rw [← hex]
      exact .inr (hcap received h hpre hs)
  · exact (hcaught received hpre).resolve_left hs.not_refused line (hexecuted hs line hm)
  · rintro ⟨received, h, left, ⟨after, rfl⟩, hs, hphase⟩ hfit
    rw [List.flatten_append] at hfit
    obtain ⟨-, hw⟩ := hs.onTrack hfit.of_append
    cases (hw.drop_eq hphase).2
  · rcases hcaught chunks (List.prefix_refl _) with ⟨before, after, -, he, hgt⟩ | hle
    · have hpre : before <+: chunks := ⟨after, he.symm⟩
      obtain ⟨received, h, left, hpre', hrun⟩ := exists_hangup exec start (hsub hpre) hgt
      exact ⟨received, h, left, hpre'.trans hpre, hrun⟩
    · apply exists_hangup exec start hchunks
      exact Nat.lt_of_not_le fun hrest => hfit ⟨hle, hrest⟩
  · exact length_lt_of_not_refused (fun c hc => (hsub hpre c hc).2) hs.not_refused line
      (hexecuted hs line hm)

/-- With a cap of `4`, a line of eight bytes is executed if it comes in one chunk, and refused
if a chunk ends behind its fifth byte. -/
theorem cap_depends_on_cuts :
    (∃ h, Serves 4 (executor fun _ => ⟨fun _ => 0, none⟩) Database.single
      [bytes "abcdefgh\n"] h ∧ h.executed = [bytes "abcdefgh"]) ∧
    ∃ h, Serves 4 (executor fun _ => ⟨fun _ => 0, none⟩) Database.single [bytes "abcde"] h ∧
      h.executed = [] ∧
      h.phase = .sending (framed (Protocol.error (bytes "ERR request too large"))) true :=
  ⟨⟨_, .receive .start rfl (by decide) (by decide), rfl⟩,
    ⟨_, .receive .start rfl (by decide) (by decide), rfl, rfl⟩⟩

theorem cap_holds_iff_caught_split :
    Caught 4 [bytes "abcde", bytes "fgh\n"] ∧
      ∀ received h, received <+: [bytes "abcde", bytes "fgh\n"] →
        Serves 4 (executor fun _ => ⟨fun _ => 0, none⟩) Database.single received h →
        ∀ line ∈ h.executed, line.length ≤ 4 := by
  have hcaught : Caught 4 [bytes "abcde", bytes "fgh\n"] := by
    intro received hpre
    rw [List.prefix_cons_iff] at hpre
    rcases hpre with rfl | ⟨more, rfl, hpre⟩
    · exact .inr (by decide)
    · rw [List.prefix_cons_iff] at hpre
      rcases hpre with rfl | ⟨more, rfl, hpre⟩
      · exact .inr (by decide)
      · exact .inl ⟨[bytes "abcde"], bytes "fgh\n" :: more, by simp, rfl, by decide⟩
  exact ⟨hcaught, (cap_holds_iff_caught _ _ 4 (by decide)).1.2 hcaught⟩

end Server

end VCache
