import Mathlib.Data.List.TakeWhile
import VCache.Client.Model
import VCache.Command.WireText
import VCache.Server.Connection

/-!
# Replies on the wire

Every reply of `execute` to a line that is not blank is as many lines as its tag announces,
and they say what the reply says.
-/

namespace VCache

open Lib CommandParser CommandExecutor Server
open Database (Op Answer)

/-- What a call of `execute` finds: the database as all connections have left it, the clock
readings and the file system. -/
structure Found where
  db : Database
  env : Env

namespace Found

def execute (found : Found) (line : Bytes) : Database × Option Bytes :=
  CommandExecutor.execute found.db line found.env

/-- The decoded form of the reply: the elements of a `KEYS`, else the tag and the payload. -/
def decoded (found : Found) (line : Bytes) : Reply :=
  match CommandParser.parse line, (found.execute line).2 with
  | .ok { type := .keys, .. }, _ =>
    { delivered := true
      type := .array
      elements := (found.db.keys found.env.now).map escapeForWire }
  | _, some (tag :: payload) => { delivered := true, type := .ofTag tag, payload := payload }
  | _, _ => {}

end Found

/-- `parseCount` can read the number of keys, and the text of a failed save is one line. -/
structure Legible (saved : SaveOutcome) (answer : Answer) : Prop where
  keys : ∀ keys, answer = .keys keys → keys.length ≤ 100000000
  save : Ascii.lf ∉ saved.error

/-- Whatever `execute` is asked. -/
def Found.Tame (found : Found) : Prop :=
  Legible (found.env.store.getD {}) (.keys (found.db.keys found.env.now))

/-! ### Lines that make up a reply -/

/-- The lines of a reply, and what it says. -/
inductive ReplyLines : List Bytes → Reply → Prop where
  | single {type : ReplyType} {payload : Bytes} : Ascii.lf ∉ payload → type ≠ .unknown →
      type ≠ .array → ReplyLines [type.tag :: payload] { delivered := true, type, payload }
  | array {elements : List Bytes} : elements.length ≤ 100000000 →
      (∀ element ∈ elements, Ascii.lf ∉ element) →
      ReplyLines (Protocol.arrayHeader elements.length :: elements.map Protocol.value)
        { delivered := true, type := .array, elements := elements }

theorem ReplyLines.delivered {lines : List Bytes} {reply : Reply} (h : ReplyLines lines reply) :
    reply.delivered = true := by
  cases h <;> rfl

def wire (lines : List Bytes) : Bytes := lines.flatMap framed

theorem wire_cons (line : Bytes) (more : List Bytes) :
    wire (line :: more) = line ++ Ascii.lf :: wire more := by
  simp [wire, framed]

theorem lf_notMem_tag (type : ReplyType) {payload : Bytes} (h : Ascii.lf ∉ payload) :
    Ascii.lf ∉ type.tag :: payload := by
  rw [List.mem_cons, not_or]
  exact ⟨by cases type <;> decide, h⟩

theorem lf_notMem_escapeForWire (raw : Bytes) : Ascii.lf ∉ escapeForWire raw := by
  intro h
  exact absurd (printable_escapeForWire _ h) (by decide)

/-! ### Errors of the parser -/

theorem lf_notMem_sanitizeForEcho (verb : Bytes) : Ascii.lf ∉ sanitizeForEcho verb := by
  have hshown : Ascii.lf ∉ (verb.take kMaxEchoedVerbLength).map fun byte =>
      if 0x20 ≤ byte && byte < 0x7f then byte else 63 := by
    intro h
    obtain ⟨byte, -, hb⟩ := List.mem_map.1 h
    split at hb
    next hp =>
      rw [hb] at hp
      exact absurd hp (by decide)
    · exact absurd hb (by decide)
  unfold sanitizeForEcho
  simp only
  split
  · rw [List.mem_append, not_or]
    exact ⟨hshown, by decide⟩
  · exact hshown

theorem tokenizeLoop_error : ∀ {fuel : Nat} {rest error : Bytes},
    tokenizeLoop fuel rest = .error error → Ascii.lf ∉ error
  | 0, _, error, h => by
    cases h
    simp
  | fuel + 1, rest, error, h => by
    have key : ∀ {token : Bytes} {r : Except Bytes (List Bytes)},
        r.map (token :: ·) = .error error → r = .error error := by
      intro token r hr
      cases r with
      | error e => exact hr
      | ok _ => cases hr
    unfold tokenizeLoop at h
    split at h
    · cases h
    · split at h
      · split at h
        · cases h
          decide
        · split at h
          · exact tokenizeLoop_error (key h)
          · cases h
            decide
      · exact tokenizeLoop_error (key h)

def WellSaid : ParseResult → Prop
  | .error error => Ascii.lf ∉ error
  | .ok command => command.type ≠ .empty

theorem parseExpiry_wellSaid {arguments : List Bytes} {command : Command}
    (h : command.type ≠ .empty) : WellSaid (parseExpiry arguments command) := by
  unfold parseExpiry
  split
  · split
    · show Ascii.lf ∉ bytes "ERR syntax error"
      decide
    · split
      · show Ascii.lf ∉ bytes "ERR value is not an integer or out of range"
        decide
      · split
        · show Ascii.lf ∉ bytes "ERR invalid expire time in 'SET' command"
          decide
        · exact h
  · show Ascii.lf ∉ bytes "ERR syntax error"
    decide

theorem parseTokens_wellSaid (verb : Bytes) (arguments : List Bytes) :
    WellSaid (parseTokens (verb :: arguments)) := by
  rw [parseTokens]
  split
  · show Ascii.lf ∉ bytes "ERR unknown command '" ++ sanitizeForEcho verb ++ bytes "'"
    simp only [List.mem_append, not_or]
    exact ⟨⟨by decide, lf_notMem_sanitizeForEcho verb⟩, by decide⟩
  next spec hspec =>
    obtain ⟨hname, htype⟩ : Ascii.lf ∉ spec.name ∧ spec.type ≠ .empty := by
      have key : ∀ s ∈ kCommands, Ascii.lf ∉ s.name ∧ s.type ≠ .empty := by decide
      exact key spec (List.mem_of_find?_eq_some hspec)
    split
    · show Ascii.lf ∉ bytes "ERR wrong number of arguments for '" ++ spec.name ++ bytes "' command"
      simp only [List.mem_append, not_or]
      exact ⟨⟨by decide, hname⟩, by decide⟩
    · simp only
      split
      · exact parseExpiry_wellSaid htype
      · exact htype

/-! ### Lines that are not blank -/

/-- The test of the command loop of the client. -/
def hasContent (line : Bytes) : Bool :=
  line.any fun c => !(c == Ascii.space || c == Ascii.tab || c == Ascii.cr)

theorem stripLineEnd_blank {line : Bytes} (h : Blank (stripLineEnd line)) :
    ∀ c ∈ line, isSpace c = true ∨ isLineEnd c = true := by
  intro c hc
  have hsplit := List.takeWhile_append_dropWhile (p := isLineEnd) (l := line.reverse)
  have hm : c ∈ line.reverse := List.mem_reverse.2 hc
  rw [← hsplit, List.mem_append] at hm
  rcases hm with hm | hm
  · exact .inr (List.mem_takeWhile_imp hm)
  · exact .inl (h c (List.mem_reverse.2 hm))

theorem tokenizeLoop_nil {fuel : Nat} {content : Bytes} (h : tokenizeLoop fuel content = .ok []) :
    Blank content := by
  have key : ∀ {token : Bytes} {r : Except Bytes (List Bytes)}, r.map (token :: ·) ≠ .ok [] := by
    intro token r hr
    cases r with
    | error e => cases hr
    | ok _ => cases hr
  cases fuel with
  | zero => cases h
  | succ fuel =>
    unfold tokenizeLoop at h
    split at h
    next hd => exact List.dropWhile_eq_nil_iff.1 hd
    · split at h
      · split at h
        · cases h
        · split at h
          · exact absurd h key
          · cases h
      · exact absurd h key

theorem tokenize_ne_nil {line : Bytes} (hlf : Ascii.lf ∉ line) (hc : hasContent line = true) :
    tokenize line ≠ .ok [] := by
  intro h
  obtain ⟨c, hm, hn⟩ := List.any_eq_true.1 hc
  have hne : c ≠ Ascii.lf := fun e => hlf (e ▸ hm)
  have hblank := stripLineEnd_blank (tokenizeLoop_nil h) c hm
  simp only [isSpace, isLineEnd, Bool.or_eq_true, beq_iff_eq, Bool.not_eq_true',
    Bool.or_eq_false_iff, beq_eq_false_iff_ne] at hblank hn
  tauto

theorem parse_wellSaid {line : Bytes} (hlf : Ascii.lf ∉ line) (hc : hasContent line = true) :
    WellSaid (CommandParser.parse line) := by
  unfold CommandParser.parse
  cases ht : tokenize line with
  | error error => exact tokenizeLoop_error ht
  | ok tokens =>
    cases tokens with
    | nil => exact absurd ht (tokenize_ne_nil hlf hc)
    | cons verb arguments => exact parseTokens_wellSaid verb arguments

/-! ### Replies -/

theorem framed_foldl (texts : List Bytes) : ∀ header : Bytes,
    framed (texts.foldl (fun response text => response ++ Ascii.lf :: text) header)
      = wire (header :: texts) := by
  induction texts with
  | nil => simp [wire]
  | cons text texts ih =>
    intro header
    rw [List.foldl_cons, ih, wire_cons, wire_cons, wire_cons, List.append_assoc, List.cons_append]

def errorReply (text : Bytes) : Reply := { delivered := true, type := .error, payload := text }

def okReply : Reply := { delivered := true, type := .status, payload := bytes "OK" }

namespace CommandExecutor

/-- The reply to an answer of the database, as a client returns it. -/
def replyTo (command : Command) (saved : SaveOutcome) (answer : Answer) : Reply :=
  match command.type, answer with
  | .set, .outcome outcome =>
    if outcome = .rejected then
      errorReply (bytes "ERR value is larger than the configured max-memory")
    else okReply
  | .get, .value none => { delivered := true, type := .nil }
  | .get, .value (some value) =>
    { delivered := true, type := .value, payload := escapeForWire value }
  | .del, .flag b | .exists, .flag b =>
    { delivered := true, type := .integer, payload := bytes (if b then "1" else "0") }
  | .keys, .keys keys => { delivered := true, type := .array, elements := keys.map escapeForWire }
  | .save, _ => if !saved.ok then errorReply (bytes "ERR " ++ saved.error) else okReply
  | _, _ => errorReply (bytes "ERR internal error")

/-- The reply to a line whose call is answered by `answer`. -/
def replyToLine (persistent : Bool) (line : Bytes) (saved : SaveOutcome) (answer : Op → Answer) :
    Reply :=
  match CommandParser.parse line with
  | .error error => errorReply error
  | .ok command =>
    match request persistent command with
    | none => errorReply (bytes "ERR persistence is not configured")
    | some op => replyTo command saved (answer op)

theorem single_lines {type : ReplyType} {payload : Bytes} (hu : type ≠ .unknown)
    (ha : type ≠ .array) (hp : Ascii.lf ∉ payload) :
    ∃ lines, framed (type.tag :: payload) = wire lines ∧
      ReplyLines lines { delivered := true, type, payload } :=
  ⟨[type.tag :: payload], by simp [wire], .single hp hu ha⟩

theorem error_lines {text : Bytes} (h : Ascii.lf ∉ text) :
    ∃ lines, framed (Protocol.error text) = wire lines ∧ ReplyLines lines (errorReply text) :=
  single_lines (by decide) (by decide) h

theorem ok_lines : ∃ lines, framed (Protocol.status (bytes "OK")) = wire lines ∧
    ReplyLines lines okReply :=
  single_lines (by decide) (by decide) (by decide)

theorem keys_lines {keys : List Bytes} (h : keys.length ≤ 100000000) :
    ∃ lines, framed (keys.foldl
        (fun response key => response ++ Ascii.lf :: Protocol.value (escapeForWire key))
        (Protocol.arrayHeader keys.length)) = wire lines ∧
      ReplyLines lines
        { delivered := true, type := .array, elements := keys.map escapeForWire } := by
  have hl := @ReplyLines.array (keys.map escapeForWire) (by simpa using h)
    (by simp [lf_notMem_escapeForWire])
  rw [List.length_map] at hl
  refine ⟨_, ?_, hl⟩
  rw [← framed_foldl, List.foldl_map, List.foldl_map]

theorem respond_lines {command : Command} {saved : SaveOutcome} {answer : Answer}
    (h : Legible saved answer) :
    ∃ lines, framed (respond command saved answer) = wire lines ∧
      ReplyLines lines (replyTo command saved answer) := by
  have internal : ∃ lines, framed (Protocol.error (bytes "ERR internal error")) = wire lines ∧
      ReplyLines lines (errorReply (bytes "ERR internal error")) := error_lines (by decide)
  have flag : ∀ b : Bool, ∃ lines, framed (Protocol.integer (if b then 1 else 0)) = wire lines ∧
      ReplyLines lines
        { delivered := true, type := .integer, payload := bytes (if b then "1" else "0") } := by
    intro b
    cases b <;> exact single_lines (by decide) (by decide) (by decide)
  obtain ⟨type, key, value, expireSeconds⟩ := command
  cases type with
  | empty => exact internal
  | set =>
    cases answer with
    | outcome outcome =>
      simp only [respond, replyTo]
      split
      · exact error_lines (by decide)
      · exact ok_lines
    | _ => exact internal
  | get =>
    cases answer with
    | value found =>
      cases found with
      | none => exact single_lines (by decide) (by decide) List.not_mem_nil
      | some value => exact single_lines (by decide) (by decide) (lf_notMem_escapeForWire value)
    | _ => exact internal
  | del | «exists» =>
    cases answer with
    | flag b => exact flag b
    | _ => exact internal
  | keys =>
    cases answer with
    | keys keys => exact keys_lines (h.keys keys rfl)
    | _ => exact internal
  | save =>
    simp only [respond, replyTo]
    split
    · refine error_lines ?_
      rw [List.mem_append, not_or]
      exact ⟨by decide, h.save⟩
    · exact ok_lines

/-- Every line with content gets a reply, and it is the lines that its decoded form takes. -/
theorem responseTo_lines {persistent : Bool} {line : Bytes} {saved : SaveOutcome}
    {answer : Op → Answer} (h : ∀ op, Legible saved (answer op)) (hlf : Ascii.lf ∉ line)
    (hc : hasContent line = true) :
    ∃ response lines, responseTo persistent line saved answer = some response ∧
      framed response = wire lines ∧
      ReplyLines lines (replyToLine persistent line saved answer) := by
  have hsaid := parse_wellSaid hlf hc
  unfold responseTo replyToLine
  cases hparse : CommandParser.parse line with
  | error error =>
    rw [hparse] at hsaid
    exact ⟨_, (error_lines hsaid).imp fun _ hl => ⟨rfl, hl⟩⟩
  | ok command =>
    rw [hparse] at hsaid
    dsimp only
    cases hreq : request persistent command with
    | none =>
      have himmediate : immediate command =
          some (Protocol.error (bytes "ERR persistence is not configured")) := by
        unfold immediate
        split
        next he => exact absurd he hsaid
        next => rfl
      exact ⟨_, (error_lines (by decide)).imp fun _ hl => ⟨himmediate, hl⟩⟩
    | some op => exact ⟨_, (respond_lines (h op)).imp fun _ hl => ⟨rfl, hl⟩⟩

theorem replyTo_not_array {command : Command} (h : command.type ≠ .keys) (saved : SaveOutcome)
    (answer : Answer) : (replyTo command saved answer).type ≠ .array := by
  unfold replyTo
  split
  · split <;> simp [errorReply, okReply]
  · simp
  · simp
  · simp
  · simp
  next hk => exact absurd hk h
  · split <;> simp [errorReply, okReply]
  · simp [errorReply]

theorem replyToLine_not_array {persistent : Bool} {line : Bytes} {saved : SaveOutcome}
    {answer : Op → Answer}
    (h : ∀ command, CommandParser.parse line = .ok command → command.type ≠ .keys) :
    (replyToLine persistent line saved answer).type ≠ .array := by
  unfold replyToLine
  split
  · simp [errorReply]
  next command hparse =>
    split
    · simp [errorReply]
    · exact replyTo_not_array (h command hparse) _ _

end CommandExecutor

namespace Found

variable {found : Found} {line : Bytes}

theorem decoded_eq {response : Bytes} {lines : List Bytes} {reply : Reply}
    (hk : ∀ command, CommandParser.parse line = .ok command → command.type ≠ .keys)
    (hr : (found.execute line).2 = some response) (hf : framed response = wire lines)
    (hl : ReplyLines lines reply) (ha : reply.type ≠ .array) : found.decoded line = reply := by
  cases hl with
  | array _ _ => exact absurd rfl ha
  | @single type payload _ _ _ =>
    obtain rfl : response = type.tag :: payload := by
      have hline : framed response = framed (type.tag :: payload) := by simpa [wire] using hf
      exact List.append_cancel_right hline
    unfold decoded
    rw [hr]
    split
    next hkeys => exact absurd rfl (hk _ hkeys)
    next heq _ =>
      cases heq
      rw [ReplyType.ofTag_tag]
    next hno => exact (hno _ _ rfl).elim

theorem Tame.legible (h : found.Tame) (op : Op) :
    Legible (found.env.store.getD {}) (found.db.step op found.env.now).2 := by
  refine ⟨fun keys hk => ?_, h.save⟩
  cases op with
  | keys =>
    cases hk
    exact h.keys _ rfl
  | _ => cases hk

theorem reply_lines (ht : found.Tame) (hlf : Ascii.lf ∉ line) (hc : hasContent line = true) :
    ∃ reply lines, (found.execute line).2 = some reply ∧ framed reply = wire lines ∧
      ReplyLines lines (found.decoded line) := by
  have hresponse : (found.execute line).2 = _ := execute_response found.db line found.env
  rw [hresponse]
  obtain ⟨reply, lines, hr, hf, hl⟩ := responseTo_lines ht.legible hlf hc
  refine ⟨reply, lines, hr, hf, ?_⟩
  rw [← hresponse] at hr
  by_cases hk : ∃ command, CommandParser.parse line = .ok command ∧ command.type = .keys
  · obtain ⟨⟨type, key, value, expireSeconds⟩, hparse, hkeys⟩ := hk
    cases hkeys
    unfold replyToLine at hl
    unfold decoded
    rw [hparse] at hl ⊢
    exact hl
  · have hnot : ∀ command, CommandParser.parse line = .ok command → command.type ≠ .keys :=
      fun command hparse hkeys => hk ⟨command, hparse, hkeys⟩
    rw [decoded_eq hnot hr hf hl (replyToLine_not_array hnot)]
    exact hl

end Found

end VCache
