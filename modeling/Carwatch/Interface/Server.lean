import Carwatch.Lib.Machine
import Carwatch.Interface.Http

/-!
# Carwatch.Interface.Server — reading a request (`conn_read` of `src/interface/server.c`)

A connection collects what its client sends in a buffer of
`HTTP_MAX_REQUEST` bytes and runs the parser again after every `recv`.

* **Model layer**: `Conn` and `connRead`. What waits in the socket is a list
  of bytes, of which a `recv` takes as many as the buffer has room for.
* **System**: `Peer` is a connection and its socket; a wake-up brings a
  non-empty chunk, or nothing.
* **Result**: `verdict_of_arrival`, on every way of cutting a stream into
  chunks.
-/

namespace Carwatch.Interface

open Carwatch.Lib

/-- `server_conn_state_t`; a connection that is writing remembers what it
answers. -/
inductive ConnState where
  | free
  | reading
  | writing (answer : HttpParse)
deriving DecidableEq, Repr

/-- The reading side of `server_conn_t`: `req[0, req_len)`. -/
structure Conn where
  state : ConnState
  req : Bytes
  req_le : req.length ≤ httpMaxRequest

/-- A connection just accepted. -/
def Conn.fresh : Conn := ⟨.reading, [], Nat.zero_le _⟩

/-- What `recv` finds. -/
inductive RecvAns where
  /-- Whatever waits in the socket. -/
  | ready
  /-- `EAGAIN`, `EWOULDBLOCK` or `EINTR`. -/
  | again
  /-- Another error, or the end of the stream. -/
  | gone

/-- What `recv` copies behind the bytes already there. -/
def Conn.receive (c : Conn) (sock : Bytes) : Conn where
  state := c.state
  req := c.req ++ sock.take (httpMaxRequest - c.req.length)
  req_le := by
    have := c.req_le
    rw [List.length_append, List.length_take]
    omega

/-- The state in which `conn_read` leaves a connection the parser says `p`
of: it reads on, or it answers. -/
def ConnState.after : HttpParse → ConnState
  | .incomplete => .reading
  | p => .writing p

/-- `conn_read`; returns the connection and what is left in the socket. Only
a connection that is reading is polled for input. -/
def connRead (c : Conn) (ans : RecvAns) (sock : Bytes) : Conn × Bytes :=
  match c.state with
  | .free => (c, sock)
  | .writing _ => (c, sock)
  | .reading =>
      let room := httpMaxRequest - c.req.length
      if room = 0 then ({ c with state := .writing .tooLarge }, sock)
      else
        match ans with
        | .again => (c, sock)
        | .gone => ({ c with state := .free }, sock)
        | .ready =>
            if sock = [] then (c, sock)
            else
              let c' := c.receive sock
              ({ c' with state := .after (httpParseRequest c'.req) }, sock.drop room)

/-- A non-empty run of bytes from the client. -/
abbrev Chunk := { chunk : Bytes // chunk ≠ [] }

/-- A connection with its socket. -/
structure Peer where
  conn : Conn
  sock : Bytes

/-- A connection that has received nothing. -/
def Peer.fresh : Peer := ⟨.fresh, []⟩

/-- Why the connection is woken. -/
inductive Wake where
  | chunk (c : Chunk)
  | spurious

/-- The bytes a wake-up brings. -/
def Wake.bytes : Wake → Bytes
  | .chunk c => c.val
  | .spurious => []

/-- What `recv` finds at a wake-up. -/
def Wake.ans : Wake → RecvAns
  | .chunk _ => .ready
  | .spurious => .again

/-- One wake-up: the bytes arrive and `conn_read` is called. -/
def Peer.step (s : Peer) (w : Wake) : Peer :=
  let r := connRead s.conn w.ans (s.sock ++ w.bytes)
  ⟨r.1, r.2⟩

/-- The stream the client has sent. -/
def stream (wakes : List Wake) : Bytes := wakes.flatMap Wake.bytes

/-! ## The connection follows the stream -/

theorem ConnState.after_of_ne {p : HttpParse} (h : p ≠ .incomplete) :
    ConnState.after p = .writing p := by
  cases p with
  | incomplete => exact absurd rfl h
  | ok | bad | badMethod | tooLarge => rfl

theorem ConnState.after_eq_reading {p : HttpParse} (h : ConnState.after p = .reading) :
    p = .incomplete := by
  by_contra hne
  rw [ConnState.after_of_ne hne] at h
  cases h

/-- The connection stands as the whole stream demands, and while it reads it
has taken in all of it. -/
structure Peer.Reflects (s : Peer) (sent : Bytes) : Prop where
  state : s.conn.state = ConnState.after (httpParseRequest sent)
  whole : s.conn.state = .reading → s.conn.req = sent ∧ s.sock = []

/-- A connection that reads has room, for the parser would have refused a
full buffer. -/
theorem Peer.Reflects.room {s : Peer} {sent : Bytes} (h : s.Reflects sent)
    (hread : s.conn.state = .reading) : s.conn.req.length < httpMaxRequest := by
  have hinc : httpParseRequest sent = .incomplete :=
    ConnState.after_eq_reading (h.state.symm.trans hread)
  rw [(h.whole hread).1]
  exact ((httpParseRequest_eq_incomplete_iff sent).mp hinc).2

/-- The parser says of the bytes `recv` took what it says of all that came:
either they are all of it, or they fill the buffer. -/
theorem httpParseRequest_receive (c : Conn) (sock : Bytes) :
    httpParseRequest (c.receive sock).req = httpParseRequest (c.req ++ sock) := by
  show httpParseRequest (c.req ++ sock.take (httpMaxRequest - c.req.length)) = _
  by_cases hall : sock.length ≤ httpMaxRequest - c.req.length
  · rw [List.take_of_length_le hall]
  · have hfull : httpParseRequest (c.req ++ sock.take (httpMaxRequest - c.req.length)) ≠
        .incomplete := by
      intro hinc
      have hlt := ((httpParseRequest_eq_incomplete_iff _).mp hinc).2
      rw [List.length_append, List.length_take] at hlt
      have := c.req_le
      omega
    rw [← httpParseRequest_append hfull (sock.drop (httpMaxRequest - c.req.length)),
      List.append_assoc, List.take_append_drop]

/-- A chunk that arrives while the connection reads. -/
theorem Peer.Reflects.chunk {s : Peer} {sent : Bytes} (h : s.Reflects sent)
    (hread : s.conn.state = .reading) (c : Chunk) :
    (s.step (.chunk c)).Reflects (sent ++ c.val) := by
  have hroom := h.room hread
  rcases h.whole hread with ⟨hreq, hsock⟩
  have hne : httpMaxRequest - s.conn.req.length ≠ 0 := by omega
  have hstep : s.step (.chunk c) =
      ⟨{ s.conn.receive c.val with
          state := .after (httpParseRequest (s.conn.receive c.val).req) },
        c.val.drop (httpMaxRequest - s.conn.req.length)⟩ := by
    simp only [Peer.step, connRead, Wake.ans, Wake.bytes, hread, hsock, List.nil_append, hne,
      c.property, if_false]
  rw [hstep, httpParseRequest_receive, hreq]
  refine ⟨rfl, ?_⟩
  intro hstill
  -- still reading: the buffer is not full, so the whole chunk was taken
  have hinc : httpParseRequest (sent ++ c.val) = .incomplete := ConnState.after_eq_reading hstill
  have hlt := ((httpParseRequest_eq_incomplete_iff _).mp hinc).2
  have hall : c.val.length ≤ httpMaxRequest - s.conn.req.length := by
    rw [List.length_append] at hlt
    rw [hreq]
    omega
  refine ⟨?_, ?_⟩
  · show s.conn.req ++ c.val.take (httpMaxRequest - s.conn.req.length) = _
    rw [List.take_of_length_le hall, hreq]
  · exact List.drop_eq_nil_of_le (hreq ▸ hall)

/-- One wake-up keeps the connection in step with the stream. -/
theorem Peer.Reflects.step {s : Peer} {sent : Bytes} (h : s.Reflects sent) (w : Wake) :
    (s.step w).Reflects (sent ++ w.bytes) := by
  by_cases hread : s.conn.state = .reading
  · cases w with
    | chunk c => exact h.chunk hread c
    | spurious =>
        have hroom := h.room hread
        have hne : httpMaxRequest - s.conn.req.length ≠ 0 := by omega
        have hstep : s.step .spurious = s := by
          simp only [Peer.step, connRead, Wake.ans, Wake.bytes, hread, List.append_nil, hne,
            if_false]
        rw [hstep]
        show s.Reflects (sent ++ [])
        rw [List.append_nil]
        exact h
  · -- an answer stands, whatever comes after it
    have hp : httpParseRequest sent ≠ .incomplete := by
      intro hinc
      have hstate := h.state
      rw [hinc] at hstate
      exact hread hstate
    have hwriting : s.conn.state = .writing (httpParseRequest sent) :=
      h.state.trans (ConnState.after_of_ne hp)
    have hconn : (s.step w).conn = s.conn := by
      simp only [Peer.step, connRead, hwriting]
    refine ⟨?_, ?_⟩
    · rw [hconn, httpParseRequest_append hp]
      exact h.state
    · rw [hconn]
      intro hcontra
      exact absurd hcontra hread

theorem reflects_run (wakes : List Wake) : (run Peer.step .fresh wakes).Reflects (stream wakes) := by
  have hgen : ∀ (s : Peer) (sent : Bytes), s.Reflects sent →
      (run Peer.step s wakes).Reflects (sent ++ stream wakes) := by
    induction wakes with
    | nil =>
        intro s sent h
        show s.Reflects (sent ++ [])
        rw [List.append_nil]
        exact h
    | cons w wakes ih =>
        intro s sent h
        have hrest := ih (s.step w) (sent ++ w.bytes) (h.step w)
        rw [List.append_assoc] at hrest
        exact hrest
  exact hgen .fresh [] ⟨by decide, fun _ => ⟨rfl, rfl⟩⟩

/-- However a stream is cut into chunks, the connection ends in the state the
parser's answer on the whole stream demands; an answer holds on every
extension; and no strict prefix of an admissible head gets one. -/
theorem verdict_of_arrival :
    (∀ wakes : List Wake,
      (run Peer.step .fresh wakes).conn.state = .after (httpParseRequest (stream wakes))) ∧
    (∀ buf ext : Bytes, httpParseRequest buf ≠ .incomplete →
      httpParseRequest (buf ++ ext) = httpParseRequest buf) ∧
    (∀ (buf : Bytes) (e : ℕ), memmem crlfcrlf buf = some e → e + 4 ≤ httpMaxRequest →
      ∀ n < e + 4, httpParseRequest (buf.take n) = .incomplete) := by
  refine ⟨?_, ?_, ?_⟩
  · intro wakes
    exact (reflects_run wakes).state
  · intro buf ext h
    exact httpParseRequest_append h ext
  · intro buf e h hcap n hn
    exact httpParseRequest_take h hcap hn

/-- `GET / HTTP/1.1` and the blank line. -/
def rootRequest : Bytes := getWord ++ [0x20, 0x2F, 0x20] ++ version11 ++ crlfcrlf

/-- The end of the head split over two chunks, with a byte behind it. -/
theorem verdict_of_arrival_straddling :
    (run Peer.step .fresh
        [.chunk ⟨rootRequest.take 16, by decide⟩, .spurious,
          .chunk ⟨rootRequest.drop 16 ++ [0x58], by decide⟩]).conn.state =
      .writing (.ok ⟨[0x2F], []⟩) ∧
    httpParseRequest (rootRequest ++ [0x58]) = httpParseRequest rootRequest ∧
    httpParseRequest (rootRequest.take 17) = .incomplete := by
  refine ⟨?_, ?_, ?_⟩
  · rw [verdict_of_arrival.1]
    decide
  · exact verdict_of_arrival.2.1 rootRequest [0x58] (by decide)
  · exact verdict_of_arrival.2.2 rootRequest 14 (by decide) (by decide) 17 (by decide)

end Carwatch.Interface
