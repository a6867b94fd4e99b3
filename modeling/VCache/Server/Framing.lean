import VCache.Server.Connection

/-!
# Framing

What a handler has done and what it owes add up to a function of the bytes received, and of
these alone. So the cuts between chunks leave no trace.
-/

namespace VCache

open Lib

namespace Server

variable {σ : Type} {maxRequestBytes : Nat} (exec : Nat → σ → Bytes → σ × Option Bytes)

def replyBytes : Option Bytes → Bytes
  | none => []
  | some response => framed response

/-- Executing `lines` one after the other, the first as call `i`: the final state and the
replies. -/
def serveLines : Nat → σ → List Bytes → σ × Bytes
  | _, state, [] => (state, [])
  | i, state, line :: more =>
    let r := exec i state line
    let t := serveLines (i + 1) r.1 more
    (t.1, replyBytes r.2 ++ t.2)

def Phase.unsent : Phase → Bytes
  | .sending rest _ => rest
  | _ => []

/-- What is executed and what is pending add up to the bytes received. -/
structure Consumed (stream : Bytes) (h : Handler σ) : Prop where
  executed : h.executed ++ lines Ascii.lf h.pending = lines Ascii.lf stream
  pending : rest Ascii.lf h.pending = rest Ascii.lf stream

/-- The handler is where it should be after the bytes `stream`. -/
structure OnTrack (start : σ) (stream : Bytes) (h : Handler σ) : Prop
    extends Consumed stream h where
  served : serveLines exec 0 start (lines Ascii.lf stream) =
    let t := serveLines exec h.executed.length h.state (lines Ascii.lf h.pending)
    (t.1, h.sent ++ h.phase.unsent ++ t.2)

/-- The handler waits, and neither hangs up nor has reason to. -/
def Waiting (h : Handler σ) : Prop :=
  (h.phase = .receiving ∧ lines Ascii.lf h.pending = []) ∨
    ∃ left, left ≠ [] ∧ h.phase = .sending left false

variable {exec} {start : σ} {stream : Bytes} {h : Handler σ}

/-! ### Lines -/

theorem serveLines_append (xs ys : List Bytes) : ∀ (i : Nat) (state : σ),
    serveLines exec i state (xs ++ ys) =
      let s := serveLines exec i state xs
      let t := serveLines exec (i + xs.length) s.1 ys
      (t.1, s.2 ++ t.2) := by
  induction xs with
  | nil => intro i state; rfl
  | cons x xs ih =>
    intro i state
    simp only [List.cons_append, serveLines, ih, List.length_cons, List.append_assoc,
      Nat.add_assoc, Nat.add_comm 1]

theorem framed_ne_nil (line : Bytes) : framed line ≠ [] := by simp [framed]

/-! ### The inner loop -/

theorem OnTrack.cutLines (hfit : (rest Ascii.lf stream).length ≤ maxRequestBytes) :
    ∀ {fuel : Nat} {h : Handler σ}, h.pending.length < fuel → OnTrack exec start stream h →
      h.phase.unsent = [] →
      OnTrack exec start stream (h.cutLines maxRequestBytes exec fuel) ∧
        Waiting (h.cutLines maxRequestBytes exec fuel)
  | fuel + 1, h, hf, ht, hu => by
    obtain ⟨⟨hex, hp⟩, hs⟩ := ht
    rw [hu, List.append_nil] at hs
    rcases split_first Ascii.lf h.pending with hn | ⟨line, after, hn, hpend⟩
    · have hle : ¬ h.pending.length > maxRequestBytes := by
        rw [rest_of_notMem hn] at hp
        rw [hp]
        omega
      simp only [Handler.cutLines, cutFirst_eq_none hn, if_neg hle]
      exact ⟨⟨⟨hex, hp⟩, by simpa [Phase.unsent] using hs⟩, .inl ⟨rfl, lines_of_notMem hn⟩⟩
    · rw [hpend, lines_line hn] at hex hs
      rw [hpend, rest_line hn] at hp
      have hlen : after.length < fuel := length_after_lt hpend hf
      simp only [Handler.cutLines, hpend, cutFirst_line hn, Handler.executeLine]
      simp only [serveLines] at hs
      cases hr : (exec h.executed.length h.state line).2 with
      | none =>
        refine OnTrack.cutLines hfit hlen ⟨⟨by simpa using hex, hp⟩, ?_⟩ hu
        simpa [hr, hu, replyBytes] using hs
      | some response =>
        refine ⟨⟨⟨by simpa using hex, hp⟩, ?_⟩, .inr ⟨_, framed_ne_nil response, rfl⟩⟩
        simpa [hr, replyBytes, Phase.unsent] using hs

theorem OnTrack.cut (hfit : (rest Ascii.lf stream).length ≤ maxRequestBytes)
    (ht : OnTrack exec start stream h) (hu : h.phase.unsent = []) :
    OnTrack exec start stream (h.cut maxRequestBytes exec) ∧
      Waiting (h.cut maxRequestBytes exec) :=
  ht.cutLines hfit (by omega) hu

theorem cut_of_notMem (hn : Ascii.lf ∉ h.pending) (hle : h.pending.length ≤ maxRequestBytes) :
    h.cut maxRequestBytes exec = { h with phase := .receiving } := by
  have hle' : ¬ h.pending.length > maxRequestBytes := by omega
  simp only [Handler.cut, Handler.cutLines, cutFirst_eq_none hn, if_neg hle']

theorem cut_line {line after reply : Bytes} (hp : h.pending = line ++ Ascii.lf :: after)
    (hn : Ascii.lf ∉ line) (hr : (exec h.executed.length h.state line).2 = some reply) :
    h.cut maxRequestBytes exec =
      { h with
        state := (exec h.executed.length h.state line).1
        pending := after
        executed := h.executed ++ [line]
        phase := .sending (framed reply) false } := by
  simp only [Handler.cut, Handler.cutLines, hp, cutFirst_line hn, Handler.executeLine, hr]

theorem sent_cutLines : ∀ (fuel : Nat) (h : Handler σ),
    (h.cutLines maxRequestBytes exec fuel).sent = h.sent
  | 0, _ => rfl
  | fuel + 1, h => by
    unfold Handler.cutLines
    split
    · split <;> rfl
    next line after _ =>
      simp only [Handler.executeLine]
      cases hr : (exec h.executed.length h.state line).2 with
      | none => simp only [sent_cutLines fuel]
      | some response => rfl

/-! ### System calls -/

theorem resume_received (hphase : h.phase = .receiving) (chunk : Bytes) :
    h.resume maxRequestBytes exec (.received chunk)
      = Handler.cut maxRequestBytes exec { h with pending := h.pending ++ chunk } := by
  simp only [Handler.resume, hphase]

theorem resume_accepted {left : Bytes} {drop : Bool} (hphase : h.phase = .sending left drop)
    (count : Nat) :
    h.resume maxRequestBytes exec (.accepted count) =
      let h' : Handler σ := { h with
        sent := h.sent ++ left.take count, phase := .sending (left.drop count) drop }
      if count < left.length then h'
      else if drop then { h' with phase := .finished }
      else h'.cut maxRequestBytes exec := by
  simp only [Handler.resume, hphase]

theorem resume_interrupted (hphase : h.phase ≠ .finished) :
    h.resume maxRequestBytes exec .interrupted = h := by
  unfold Handler.resume
  cases hp : h.phase <;> simp_all

theorem Waiting.not_finished (hw : Waiting h) : h.phase ≠ .finished := by
  rcases hw with ⟨hr, _⟩ | ⟨_, _, hr⟩ <;> simp [hr]

theorem Waiting.lines_eq (hw : Waiting h) (hphase : h.phase = .receiving) :
    lines Ascii.lf h.pending = [] := by
  rcases hw with ⟨_, hl⟩ | ⟨left, _, hl⟩
  · exact hl
  · rw [hphase] at hl
    cases hl

theorem Waiting.drop_eq {left : Bytes} {drop : Bool} (hw : Waiting h)
    (hphase : h.phase = .sending left drop) : left ≠ [] ∧ drop = false := by
  rcases hw with ⟨hr, _⟩ | ⟨left, hne, hr⟩ <;> rw [hphase] at hr <;> cases hr
  exact ⟨hne, rfl⟩

theorem Consumed.receive {chunk : Bytes} (hc : Consumed stream h)
    (hlines : lines Ascii.lf h.pending = []) :
    Consumed (stream ++ chunk) { h with pending := h.pending ++ chunk } := by
  obtain ⟨hex, hp⟩ := hc
  rw [hlines, List.append_nil] at hex
  refine ⟨?_, ?_⟩
  · show h.executed ++ lines Ascii.lf (h.pending ++ chunk) = lines Ascii.lf (stream ++ chunk)
    rw [lines_append, hlines, List.nil_append, hp, lines_append stream, hex]
  · show rest Ascii.lf (h.pending ++ chunk) = rest Ascii.lf (stream ++ chunk)
    rw [rest_append, hp, ← rest_append]

theorem OnTrack.receive {chunk : Bytes} (ht : OnTrack exec start stream h)
    (hphase : h.phase = .receiving) (hlines : lines Ascii.lf h.pending = []) :
    OnTrack exec start (stream ++ chunk) { h with pending := h.pending ++ chunk } := by
  obtain ⟨hc, hs⟩ := ht
  refine ⟨hc.receive hlines, ?_⟩
  obtain ⟨hex, hp⟩ := hc
  rw [hlines, List.append_nil] at hex
  show serveLines exec 0 start (lines Ascii.lf (stream ++ chunk)) = _
  rw [lines_append stream, serveLines_append, hs, hlines, ← hex, hphase, lines_append h.pending,
    hlines, hp]
  simp [serveLines, Phase.unsent]

theorem OnTrack.send {left : Bytes} {drop : Bool} (ht : OnTrack exec start stream h)
    (hphase : h.phase = .sending left drop) (count : Nat) :
    OnTrack exec start stream
      { h with sent := h.sent ++ left.take count, phase := .sending (left.drop count) drop } := by
  refine ⟨⟨ht.executed, ht.pending⟩, ?_⟩
  rw [ht.served, hphase]
  simp only [Phase.unsent, List.append_assoc]
  rw [← List.append_assoc (left.take count), List.take_append_drop]

theorem Serves.onTrack {chunks : List Bytes} (hs : Serves maxRequestBytes exec start chunks h)
    (hfit : Fits Ascii.lf maxRequestBytes chunks.flatten) :
    OnTrack exec start chunks.flatten h ∧ Waiting h := by
  induction hs with
  | start => exact ⟨⟨⟨rfl, rfl⟩, rfl⟩, .inl ⟨rfl, rfl⟩⟩
  | @receive chunks h chunk _ hphase _ _ ih =>
    rw [List.flatten_concat] at hfit ⊢
    obtain ⟨ht, hw⟩ := ih hfit.of_append
    rw [resume_received hphase]
    refine (ht.receive hphase (hw.lines_eq hphase)).cut hfit.2 ?_
    show h.phase.unsent = []
    rw [hphase]
    rfl
  | @send chunks h left drop count _ hphase hle ih =>
    obtain ⟨ht, hw⟩ := ih hfit
    obtain ⟨-, rfl⟩ := hw.drop_eq hphase
    have hsend := ht.send hphase count
    rw [resume_accepted hphase]
    by_cases hc : count < left.length
    · simp only [if_pos hc]
      refine ⟨hsend, .inr ⟨_, ?_, rfl⟩⟩
      rw [Ne, List.drop_eq_nil_iff]
      omega
    · simp only [if_neg hc, Bool.false_eq_true, if_false]
      exact hsend.cut hfit.2 (List.drop_eq_nil_iff.2 (by omega))
  | @interrupted chunks h _ ih =>
    rw [resume_interrupted (ih hfit).2.not_finished]
    exact ih hfit

/-! ### Independence of the cuts -/

def replies (exec : Nat → σ → Bytes → σ × Option Bytes) (start : σ) (stream : Bytes) : Bytes :=
  (serveLines exec 0 start (lines Ascii.lf stream)).2

theorem OnTrack.sent_prefix (ht : OnTrack exec start stream h) :
    h.sent ++ h.phase.unsent <+: replies exec start stream := by
  rw [replies, ht.served]
  exact List.prefix_append _ _

theorem OnTrack.settled (ht : OnTrack exec start stream h) (hw : Waiting h)
    (hphase : h.phase = .receiving) :
    h.executed = lines Ascii.lf stream ∧ h.pending = rest Ascii.lf stream ∧
      serveLines exec 0 start (lines Ascii.lf stream) = (h.state, h.sent) := by
  obtain ⟨⟨hex, hp⟩, hs⟩ := ht
  have hl := hw.lines_eq hphase
  rw [hl, List.append_nil] at hex
  refine ⟨hex, ?_, ?_⟩
  · rw [← hp]
    exact (rest_of_lines_eq_nil hl).symm
  · rw [hs, hl, hphase]
    simp [serveLines, Phase.unsent]

/-- A handler that sends out its replies comes back to `recv`: each one brings `sent`
nearer to `replies`. -/
theorem Serves.settles {chunks : List Bytes} (hfit : Fits Ascii.lf maxRequestBytes chunks.flatten)
    {h : Handler σ} (hs : Serves maxRequestBytes exec start chunks h) :
    ∃ h', Serves maxRequestBytes exec start chunks h' ∧ h'.phase = .receiving := by
  obtain ⟨ht, hw⟩ := hs.onTrack hfit
  rcases hw with ⟨hr, _⟩ | ⟨left, hne, hr⟩
  · exact ⟨h, hs, hr⟩
  · have hpos := List.length_pos_iff.2 hne
    have hle := ht.sent_prefix.length_le
    rw [hr, Phase.unsent, List.length_append] at hle
    have hsent : (h.resume maxRequestBytes exec (.accepted left.length)).sent.length =
        h.sent.length + left.length := by
      rw [resume_accepted hr]
      simp only [Nat.lt_irrefl, if_false, Bool.false_eq_true, Handler.cut, sent_cutLines,
        List.length_append, List.take_length]
    have hnearer : (replies exec start chunks.flatten).length -
        (h.resume maxRequestBytes exec (.accepted left.length)).sent.length <
        (replies exec start chunks.flatten).length - h.sent.length := by omega
    exact (hs.send hr (Nat.le_refl _)).settles hfit
termination_by (replies exec start chunks.flatten).length - h.sent.length
decreasing_by exact hnearer

theorem serves_chunks (hfit : Fits Ascii.lf maxRequestBytes stream) : ∀ {chunks : List Bytes},
    chunks.flatten <+: stream → (∀ chunk ∈ chunks, chunk ≠ [] ∧ chunk.length ≤ kReadChunkSize) →
    ∃ h : Handler σ, Serves maxRequestBytes exec start chunks h ∧ h.phase = .receiving := by
  intro chunks
  induction chunks using List.reverseRecOn with
  | nil => exact fun _ _ => ⟨_, .start, rfl⟩
  | append_singleton chunks chunk ih =>
    intro hpre hc
    have hfit' : Fits Ascii.lf maxRequestBytes (chunks ++ [chunk]).flatten := by
      obtain ⟨t, rfl⟩ := hpre
      exact hfit.of_append
    rw [List.flatten_concat] at hpre
    obtain ⟨h, hs, hphase⟩ := ih ((List.prefix_append _ _).trans hpre)
      fun c hm => hc c (List.mem_append_left _ hm)
    obtain ⟨hne, hle⟩ := hc chunk (by simp)
    exact (hs.receive hphase hne hle).settles hfit'

/-- However `recv` cuts the stream, the handler executes its lines in order, once each, and
writes the replies in order. It does not hang up, and comes back to `recv` with nothing
left to do. The final database and the bytes written are those of any other chunking. -/
theorem framing_ignores_chunks (db : Database) (env : Nat → CommandExecutor.Env)
    (maxRequestBytes : Nat) {chunks : List Bytes}
    (hchunks : ∀ chunk ∈ chunks, chunk ≠ [] ∧ chunk.length ≤ kReadChunkSize)
    (hfit : Fits Ascii.lf maxRequestBytes chunks.flatten) :
    (∃ h, Serves maxRequestBytes (executor env) db chunks h ∧ h.phase = .receiving) ∧
    ∀ h, Serves maxRequestBytes (executor env) db chunks h →
      h.executed <+: lines Ascii.lf chunks.flatten ∧
      h.sent <+: replies (executor env) db chunks.flatten ∧
      (h.phase = .receiving ∨ ∃ left, left ≠ [] ∧ h.phase = .sending left false ∧
        h.sent ++ left <+: replies (executor env) db chunks.flatten) ∧
      (h.phase = .receiving →
        h.executed = lines Ascii.lf chunks.flatten ∧
        h.pending = rest Ascii.lf chunks.flatten ∧
        h.sent = replies (executor env) db chunks.flatten ∧
        ∀ chunks' h', chunks'.flatten = chunks.flatten →
          Serves maxRequestBytes (executor env) db chunks' h' → h'.phase = .receiving →
          h'.state = h.state ∧ h'.sent = h.sent) := by
  refine ⟨serves_chunks hfit (List.prefix_refl _) hchunks, fun h hs => ?_⟩
  obtain ⟨ht, hw⟩ := hs.onTrack hfit
  refine ⟨⟨_, ht.executed⟩, (List.prefix_append _ _).trans ht.sent_prefix, ?_, fun hphase => ?_⟩
  · rcases hw with ⟨hr, _⟩ | ⟨left, hne, hr⟩
    · exact .inl hr
    · have := ht.sent_prefix
      rw [hr] at this
      exact .inr ⟨left, hne, hr, this⟩
  · obtain ⟨hex, hp, hserved⟩ := ht.settled hw hphase
    refine ⟨hex, hp, (congrArg Prod.snd hserved).symm, fun chunks' h' he hs' hphase' => ?_⟩
    obtain ⟨ht', hw'⟩ := hs'.onTrack (he ▸ hfit)
    have hserved' := (ht'.settled hw' hphase').2.2
    rw [he, hserved] at hserved'
    exact ⟨(congrArg Prod.fst hserved').symm, (congrArg Prod.snd hserved').symm⟩

theorem framing_ignores_chunks_split :
    ∃ h, Serves 16 (executor fun _ => ⟨fun _ => 0, none⟩) Database.single
        [bytes "SE", bytes "T a b\nEXISTS a\nKE"] h ∧
      h.executed = [bytes "SET a b", bytes "EXISTS a"] ∧ h.pending = bytes "KE" ∧
      h.sent = bytes "+OK\n:1\n" := by
  obtain ⟨⟨h, hs, hphase⟩, hall⟩ := framing_ignores_chunks Database.single
    (fun _ => ⟨fun _ => 0, none⟩) 16
    (by decide : ∀ chunk ∈ [bytes "SE", bytes "T a b\nEXISTS a\nKE"],
      chunk ≠ [] ∧ chunk.length ≤ kReadChunkSize) ⟨by decide, by decide⟩
  obtain ⟨-, -, -, hend⟩ := hall h hs
  obtain ⟨hex, hp, hsent, -⟩ := hend hphase
  exact ⟨h, hs, hex, hp, hsent⟩

end Server

end VCache
