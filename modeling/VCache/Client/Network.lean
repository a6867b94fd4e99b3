import VCache.Client.Stream
import VCache.Server.Sessions

/-!
# From call to reply

Clients and the server, with the bytes that are on their way in between. A connection keeps
bytes in order and neither loses nor invents any while it lasts; how many a system call moves is
left open on both sides.

A client that has called `command` so and so often has had the replies to its own calls, in
their order, and what each says is explained by the keyspace of the server at moments of that
command, whoever else was served in between.
-/

namespace VCache

open Function Lib

namespace Server

def Exchange.reply (persistent : Bool) (e : Exchange) : Reply :=
  CommandExecutor.replyToLine persistent e.line e.saved fun _ => e.answer.getD .done

/-- The client can read what the line is answered by. -/
def Exchange.Legible (e : Exchange) : Prop := VCache.Legible e.saved (e.answer.getD .done)

theorem Exchange.Explained.response_eq {persistent limited : Bool} {e : Exchange}
    (h : e.Explained persistent limited) :
    e.response =
      CommandExecutor.responseTo persistent e.line e.saved fun _ => e.answer.getD .done := by
  unfold Exchange.Explained at h
  unfold CommandExecutor.responseTo
  cases hparse : CommandParser.parse e.line with
  | error error =>
    rw [hparse] at h
    exact h
  | ok command =>
    rw [hparse] at h
    dsimp only at h ⊢
    cases hreq : CommandExecutor.request persistent command with
    | none =>
      rw [hreq] at h
      exact h
    | some op =>
      rw [hreq] at h
      obtain ⟨a, ha, hresponse, -⟩ := h
      rw [hresponse, ha]
      rfl

end Server

theorem wire_cons_append (line : Bytes) (more : List Bytes) (t : Bytes) :
    wire (line :: more) ++ t = line ++ Ascii.lf :: (wire more ++ t) := by
  rw [wire_cons, List.append_assoc, List.cons_append]

theorem takeElements_wire {elements : List Bytes} (h : ∀ element ∈ elements, Ascii.lf ∉ element)
    (partly : Reply) (t : Bytes) :
    Reply.takeElements elements.length partly (wire (elements.map Protocol.value) ++ t) =
      .item { partly with delivered := true, elements := partly.elements ++ elements } t := by
  induction elements generalizing partly with
  | nil => simp [Reply.takeElements, wire]
  | cons element elements ih =>
    have hn : Ascii.lf ∉ Protocol.value element := lf_notMem_tag .value (h element (.head _))
    have hknown : ¬ (Protocol.parse (Protocol.value element)).type = .unknown := by
      show ¬ ReplyType.value = .unknown
      decide
    rw [List.map_cons, wire_cons_append, List.length_cons, Reply.takeElements, cutFirst_line hn]
    dsimp only
    rw [if_neg hknown, ih fun e he => h e (.tail _ he)]
    show Taken.item { partly with
      delivered := true, elements := partly.elements ++ [element] ++ elements } t = _
    rw [List.append_assoc]
    rfl

theorem ReplyLines.take {lines : List Bytes} {reply : Reply} (h : ReplyLines lines reply)
    (t : Bytes) : Reply.take (wire lines ++ t) = .item reply t := by
  cases h with
  | @single type payload hn hu ha =>
    have hlf := lf_notMem_tag type hn
    rw [wire_cons_append, Reply.take, cutFirst_line hlf]
    simp only [Protocol.parse_tag hu, if_neg hu, if_neg ha]
    rfl
  | @array elements hle hn =>
    have hlf : Ascii.lf ∉ Protocol.arrayHeader elements.length :=
      lf_notMem_tag .array fun hm => absurd (isDigit_of_mem_decimal hm) (by decide)
    have hparse : Protocol.parse (Protocol.arrayHeader elements.length) =
        { type := .array, payload := decimal elements.length } := rfl
    rw [wire_cons_append, Reply.take, cutFirst_line hlf]
    simp only [hparse, Protocol.parseCount_decimal hle]
    exact takeElements_wire hn _ t

def tooLargeReply : Reply := errorReply (bytes "ERR request too large")

namespace Server

theorem Exchange.Explained.take {persistent limited : Bool} {e : Exchange}
    (h : e.Explained persistent limited) (hl : e.Legible) (hlf : Ascii.lf ∉ e.line)
    (hc : hasContent e.line = true) (t : Bytes) :
    Reply.take (replyBytes e.response ++ t) = .item (e.reply persistent) t := by
  obtain ⟨response, lines, hr, hf, hlines⟩ := CommandExecutor.responseTo_lines (fun _ => hl) hlf hc
  rw [h.response_eq, hr, replyBytes, hf]
  exact hlines.take t

end Server

/-! ### Connections -/

/-- Client `n` is connected to session `n`; `up` and `down` are the bytes on their way. -/
structure Network where
  shared : Server.Shared
  links : Nat → Link
  up : Nat → Bytes := fun _ => []
  down : Nat → Bytes := fun _ => []

namespace Network

variable (persistent : Bool) (maxRequestBytes : Nat)

inductive Step (s : Network) : Network → Prop where
  | server {shared : Server.Shared} : s.shared.Step persistent maxRequestBytes shared →
      (∀ n, (shared.sessions n).received = (s.shared.sessions n).received ∧
        (shared.sessions n).sent = (s.shared.sessions n).sent) → Step s { s with shared }
  | serverReceive {n : Nat} {chunk rest : Bytes} : s.up n = chunk ++ rest →
      (s.shared.sessions n).phase = .receiving →
      Step s { s with
        shared := s.shared.setSession n ((s.shared.sessions n).receive chunk)
        up := update s.up n rest }
  | serverSend {n : Nat} {rest : Bytes} {drop : Bool} {count : Nat} :
      (s.shared.sessions n).phase = .sending rest drop → count ≤ rest.length →
      Step s { s with
        shared := s.shared.setSession n ((s.shared.sessions n).accepted rest drop count)
        down := update s.down n (s.down n ++ rest.take count) }
  /-- A client calls, or a system call of its fails. -/
  | client {n : Nat} {link : Link} : (s.links n).Step link → link.sent = (s.links n).sent →
      link.stream = (s.links n).stream → Step s { s with links := update s.links n link }
  | clientSend {n : Nat} {rest : Bytes} {count : Nat} :
      (s.links n).client.phase = .sending rest → count ≤ rest.length →
      Step s { s with
        links := update s.links n { s.links n with
          client := (s.links n).client.resume (.sent count)
          sent := (s.links n).sent ++ rest.take count }
        up := update s.up n (s.up n ++ rest.take count) }
  | clientReceive {n : Nat} {chunk rest : Bytes} : s.down n = chunk ++ rest →
      (s.links n).client.phase.reading = true →
      Step s { s with
        links := update s.links n { s.links n with
          client := (s.links n).client.resume (.received chunk)
          stream := (s.links n).stream ++ chunk }
        down := update s.down n rest }

inductive Reachable : Network → Prop where
  | new {n shardCount : UInt64} {db : Database} {links : Nat → Link}
      (h : Database.new n shardCount = some db) (clock : Int) :
      (∀ n, (links n).Reachable ∧ (links n).sent = [] ∧ (links n).stream = []) →
      Reachable { shared := { watch := { sys := { db, clock } } }, links }
  | step {s s' : Network} : Reachable s → Step persistent maxRequestBytes s s' → Reachable s'

/-- Nothing is lost, added or reordered on the way. -/
structure Wired (session : Server.Session) (link : Link) (up down : Bytes) : Prop where
  reachable : link.Reachable
  up : session.received ++ up = link.sent
  down : link.stream ++ down = session.sent

structure Inv (s : Network) : Prop where
  shared : s.shared.Reachable persistent maxRequestBytes
  wired : ∀ n, Wired (s.shared.sessions n) (s.links n) (s.up n) (s.down n)

variable {persistent maxRequestBytes} {s s' : Network}

theorem Inv.move (h : Inv persistent maxRequestBytes s) {n : Nat}
    (hr : s'.shared.Reachable persistent maxRequestBytes)
    (hsame : ∀ m, m ≠ n → s'.shared.sessions m = s.shared.sessions m ∧ s'.links m = s.links m ∧
      s'.up m = s.up m ∧ s'.down m = s.down m)
    (hn : Wired (s'.shared.sessions n) (s'.links n) (s'.up n) (s'.down n)) :
    Inv persistent maxRequestBytes s' := by
  refine ⟨hr, fun m => ?_⟩
  by_cases hm : m = n
  · exact hm ▸ hn
  · obtain ⟨hsession, hlink, hup, hdown⟩ := hsame m hm
    rw [hsession, hlink, hup, hdown]
    exact h.wired m

theorem Step.inv (hs : Step persistent maxRequestBytes s s')
    (h : Inv persistent maxRequestBytes s) : Inv persistent maxRequestBytes s' := by
  cases hs with
  | @server shared hs hsame =>
    refine ⟨h.shared.step hs, fun n => ⟨(h.wired n).reachable, ?_, ?_⟩⟩
    · exact (congrArg (· ++ s.up n) (hsame n).1).trans (h.wired n).up
    · exact (h.wired n).down.trans (hsame n).2.symm
  | @serverReceive n chunk rest hup hp =>
    have hn := h.wired n
    refine h.move (h.shared.step (.receive chunk hp))
      (fun m hm => ⟨update_of_ne hm .., rfl, update_of_ne hm .., rfl⟩) ?_
    simp only [Server.Shared.setSession, update_self]
    refine ⟨hn.reachable, ?_, hn.down⟩
    rw [← hn.up, hup]
    exact List.append_assoc ..
  | @serverSend n rest drop count hp hle =>
    have hn := h.wired n
    refine h.move (h.shared.step (.send hp hle))
      (fun m hm => ⟨update_of_ne hm .., rfl, rfl, update_of_ne hm ..⟩) ?_
    simp only [Server.Shared.setSession, update_self]
    refine ⟨hn.reachable, hn.up, ?_⟩
    rw [← List.append_assoc, hn.down]
    rfl
  | @client n link hs hsent hstream =>
    have hn := h.wired n
    refine h.move h.shared (fun m hm => ⟨rfl, update_of_ne hm .., rfl, rfl⟩) ?_
    simp only [update_self]
    exact ⟨hn.reachable.step hs, hsent ▸ hn.up, hstream ▸ hn.down⟩
  | @clientSend n rest count hp hle =>
    have hn := h.wired n
    refine h.move h.shared (fun m hm => ⟨rfl, update_of_ne hm .., update_of_ne hm .., rfl⟩) ?_
    simp only [update_self]
    refine ⟨hn.reachable.step (.send hp hle), ?_, hn.down⟩
    rw [← List.append_assoc, hn.up]
  | @clientReceive n chunk rest hdown hp =>
    have hn := h.wired n
    refine h.move h.shared (fun m hm => ⟨rfl, update_of_ne hm .., rfl, update_of_ne hm ..⟩) ?_
    simp only [update_self]
    refine ⟨hn.reachable.step (.receive chunk hp), hn.up, ?_⟩
    rw [← hn.down, hdown]
    exact List.append_assoc ..

theorem Reachable.inv (h : Reachable persistent maxRequestBytes s) :
    Inv persistent maxRequestBytes s := by
  induction h with
  | new hnew clock hlinks =>
    refine ⟨.new hnew clock, fun n => ⟨(hlinks n).1, (hlinks n).2.1.symm, ?_⟩⟩
    exact (List.append_nil _).trans (hlinks n).2.2
  | step _ hs ih => exact hs.inv ih

/-! ### Replies to their calls -/

theorem lines_wire {calls : List Bytes} (h : ∀ line ∈ calls, Ascii.lf ∉ line) :
    lines Ascii.lf (wire calls) = calls := by
  induction calls with
  | nil => rfl
  | cons line calls ih =>
    rw [wire_cons, lines_line (h line (.head _)), ih fun l hl => h l (.tail _ hl)]

theorem lines_prefix {s t : Bytes} (h : s <+: t) : lines Ascii.lf s <+: lines Ascii.lf t := by
  obtain ⟨u, rfl⟩ := h
  rw [lines_append]
  exact List.prefix_append ..

theorem getElem?_of_prefix {α : Type} {l l' : List α} {i : Nat} {x : α} (h : l <+: l')
    (hi : l[i]? = some x) : l'[i]? = some x := by
  obtain ⟨z, rfl⟩ := h
  rw [List.getElem?_append_left (List.getElem?_eq_some_iff.1 hi).1]
  exact hi

theorem Inv.calls (h : Inv persistent maxRequestBytes s) {n : Nat}
    (hcalls : ∀ line ∈ (s.links n).calls, Ascii.lf ∉ line) :
    (s.shared.sessions n).exchanges.map (·.line) <+: (s.links n).calls := by
  have hn := h.wired n
  obtain ⟨good, bad, unread, hlink⟩ := hn.reachable.explained
  have hsession := h.shared.inv.session n
  calc (s.shared.sessions n).exchanges.map (·.line)
      <+: lines Ascii.lf (s.shared.sessions n).received := hsession.inOrder ▸ List.prefix_append ..
    _ <+: lines Ascii.lf (s.links n).sent := lines_prefix (hn.up ▸ List.prefix_append ..)
    _ <+: lines Ascii.lf (wire (s.links n).calls) := lines_prefix hlink.asked
    _ = (s.links n).calls := lines_wire hcalls

/-- What a session has been asked to send, reply by reply. -/
def items (persistent : Bool) (c : Server.Session) : List (Reply × Bytes) :=
  c.exchanges.map (fun e => (e.reply persistent, Server.replyBytes e.response)) ++
    [(tooLargeReply, Server.tooLarge)]

theorem items_flatMap (c : Server.Session) :
    (items persistent c).flatMap (·.2) = c.replies ++ Server.tooLarge := by
  simp [items, Server.Session.replies, List.flatMap_append, List.flatMap_map]

theorem tooLarge_take (t : Bytes) :
    Reply.take (Server.tooLarge ++ t) = .item tooLargeReply t := by
  obtain ⟨lines, hf, hl⟩ : ∃ lines, Server.framed (Protocol.error (bytes "ERR request too large")) =
    wire lines ∧ ReplyLines lines tooLargeReply := CommandExecutor.error_lines (by decide)
  rw [Server.tooLarge, hf]
  exact hl.take t

/-- The replies a client has had are the first ones its session was asked to send. -/
theorem Inv.replies (h : Inv persistent maxRequestBytes s) {n : Nat} {good bad : List Reply}
    {unread : Bytes} (hlink : (s.links n).Explained good bad unread)
    (hcalls : ∀ line ∈ (s.links n).calls, Ascii.lf ∉ line ∧ hasContent line = true)
    (hlegible : ∀ e ∈ (s.shared.sessions n).exchanges, e.Legible) :
    good <+: (s.shared.sessions n).exchanges.map (·.reply persistent) ++ [tooLargeReply] := by
  have hn := h.wired n
  have hsession := h.shared.inv.session n
  have hlines := h.calls fun line hl => (hcalls line hl).1
  have htaken : ∀ p ∈ items persistent (s.shared.sessions n), ∀ t,
      Reply.take (p.2 ++ t) = .item p.1 t := by
    intro p hp t
    rcases List.mem_append.1 hp with hp | hp
    · obtain ⟨e, he, rfl⟩ := List.mem_map.1 hp
      obtain ⟨hlf, hc⟩ := hcalls e.line (hlines.subset (List.mem_map.2 ⟨e, he, rfl⟩))
      exact (hsession.explained e he).take (hlegible e he) hlf hc t
    · rw [List.mem_singleton.1 hp]
      exact tooLarge_take t
  have hall := takeMany_items htaken []
  rw [List.append_nil, items_flatMap] at hall
  obtain ⟨z, hz⟩ : (s.links n).stream <+: (s.shared.sessions n).replies ++ Server.tooLarge :=
    (hn.down ▸ List.prefix_append ..).trans hsession.owes.sent_prefix
  have hgood := takeMany_append Reply.take_steady hlink.taken z
  rw [hz] at hgood
  have hprefix := takeMany_prefix hgood hall fun i r ht => by cases ht
  rwa [items, List.map_append, List.map_map] at hprefix

/-- **Every call gets its own answer.** The replies a client has had are the replies to its
calls, one for each and in their order: the line executed for the `i`-th one is the `i`-th
call, and what the reply says is explained by the keyspace at moments of that command. The one
other reply there can be is that the request is too large, after which there are none. -/
theorem calls_get_their_answers (h : Reachable persistent maxRequestBytes s) {n : Nat}
    (hcalls : ∀ line ∈ (s.links n).calls, Ascii.lf ∉ line ∧ hasContent line = true)
    (hlegible : ∀ e ∈ (s.shared.sessions n).exchanges, e.Legible) {i : Nat} {r : Reply}
    (hi : ((s.links n).client.replies.drop (s.links n).before)[i]? = some r)
    (hd : r.delivered = true) :
    (∃ e, (s.shared.sessions n).exchanges[i]? = some e ∧ (s.links n).calls[i]? = some e.line ∧
        r = e.reply persistent ∧ e.Explained persistent s.shared.watch.limited) ∨
      i = (s.shared.sessions n).exchanges.length ∧ r = tooLargeReply := by
  have hinv := h.inv
  obtain ⟨good, bad, unread, hlink⟩ := (hinv.wired n).reachable.explained
  have hreplies := hinv.replies hlink hcalls hlegible
  have hlines := hinv.calls fun line hl => (hcalls line hl).1
  rw [hlink.answers] at hi
  have hgood : good[i]? = some r := by
    by_cases hlt : i < good.length
    · rwa [List.getElem?_append_left hlt] at hi
    · rw [List.getElem?_append_right (Nat.le_of_not_lt hlt)] at hi
      cases hd.symm.trans (hlink.failed r (List.mem_of_getElem? hi))
  have hr := getElem?_of_prefix hreplies hgood
  rw [List.getElem?_append, List.length_map] at hr
  split at hr
  next hlt =>
    rw [List.getElem?_map] at hr
    obtain ⟨e, he, rfl⟩ := Option.map_eq_some_iff.1 hr
    have hline : ((s.shared.sessions n).exchanges.map (·.line))[i]? = some e.line := by
      rw [List.getElem?_map, he]
      rfl
    exact .inl ⟨e, he, getElem?_of_prefix hlines hline, rfl,
      (hinv.shared.inv.session n).explained e (List.mem_of_getElem? he)⟩
  next hge =>
    rw [List.getElem?_singleton] at hr
    split at hr
    next hz => cases hr; exact .inr ⟨by omega, rfl⟩
    next => cases hr

theorem Step.quiet {n : Nat} {c : Server.Session} {watch : Database.Watched}
    (hs : s.shared.Step persistent maxRequestBytes
      (Server.Shared.setSession { s.shared with watch } n c))
    (hc : c.received = (s.shared.sessions n).received ∧ c.sent = (s.shared.sessions n).sent) :
    Step persistent maxRequestBytes s
      { s with shared := Server.Shared.setSession { s.shared with watch } n c } := by
  refine .server hs fun m => ?_
  show (update s.shared.sessions n c m).received = _ ∧ (update s.shared.sessions n c m).sent = _
  by_cases hm : m = n
  · rw [hm, update_self]
    exact hc
  · rw [update_of_ne hm]
    exact ⟨rfl, rfl⟩

/-- A client sets a key. -/
theorem calls_get_their_answers_set : ∃ s, Reachable false 1024 s ∧
    (s.links 0).calls = [bytes "SET k v"] ∧ (s.links 0).client.replies = [okReply] ∧
    ∃ e, (s.shared.sessions 0).exchanges[0]? = some e ∧ e.line = bytes "SET k v" ∧
      okReply = e.reply false ∧ e.Explained false s.shared.watch.limited := by
  have h0 : Reachable false 1024 ⟨_, fun _ => ⟨({} : VCacheClient).connect, 0, [], [], []⟩, _, _⟩ :=
    .new (@rfl _ (Database.new 1 1)) 0 fun n => ⟨Link.Reachable.new.step (.connect rfl), rfl, rfl⟩
  have h1 := h0.step (.client (n := 0) (.call (bytes "SET k v") rfl) rfl rfl)
  have h2 := h1.step (@Step.clientSend _ _ _ 0 (bytes "SET k v\n") 8 rfl (by decide))
  have h3 := h2.step (@Step.serverReceive _ _ _ 0 (bytes "SET k v\n") [] rfl rfl)
  have h4 := h3.step (.quiet (n := 0) (.cut rfl) ⟨rfl, rfl⟩)
  have h5 := h4.step (.quiet (n := 0) (.advance (rfl : _ = Server.Session.Phase.executing
    (bytes "SET k v") { type := .set, key := bytes "k", value := bytes "v" }
    (.atKey (.set (bytes "k") (bytes "v"))) [])) ⟨rfl, rfl⟩)
  have h6 := h5.step (.quiet (n := 0) (.answer (a := .outcome .inserted) {} rfl) ⟨rfl, rfl⟩)
  have h7 := h6.step (@Step.serverSend _ _ _ 0 (bytes "+OK\n") false 4 rfl (by decide))
  have h8 := h7.step (@Step.clientReceive _ _ _ 0 (bytes "+OK\n") [] rfl rfl)
  obtain ⟨s, hs, hcalls, hreplies, hbefore, hanswers⟩ : ∃ s, Reachable false 1024 s ∧
      (s.links 0).calls = [bytes "SET k v"] ∧ (s.links 0).client.replies = [okReply] ∧
      (s.links 0).before = 0 ∧
      (s.shared.sessions 0).exchanges.map (fun e => (e.answer, e.saved.error)) =
        [(some (.outcome .inserted), [])] :=
    ⟨_, h8, rfl, rfl, rfl, rfl⟩
  have hlegible : ∀ e ∈ (s.shared.sessions 0).exchanges, e.Legible := by
    intro e he
    have hm := List.mem_map_of_mem (f := fun e => (e.answer, e.saved.error)) he
    rw [hanswers, List.mem_singleton, Prod.mk.injEq] at hm
    refine ⟨fun keys hk => ?_, ?_⟩
    · rw [hm.1] at hk
      cases hk
    · rw [hm.2]
      exact List.not_mem_nil
  have hlen : (s.shared.sessions 0).exchanges.length = 1 := by
    simpa using congrArg List.length hanswers
  have hget : ((s.links 0).client.replies.drop (s.links 0).before)[0]? = some okReply := by
    rw [hreplies, hbefore]
    rfl
  rcases calls_get_their_answers hs (by rw [hcalls]; decide) hlegible hget rfl with
    ⟨e, he, hline, hr, hx⟩ | ⟨hz, -⟩
  · rw [hcalls] at hline
    exact ⟨s, hs, hcalls, hreplies, e, he, (Option.some.inj hline).symm, hr, hx⟩
  · rw [hlen] at hz
    cases hz

end Network

end VCache
