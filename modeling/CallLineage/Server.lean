import CallLineage.Corpus
import CallLineage.GitSettings
import CallLineage.Json.Wire
/-! Answering requests one after another, each from a fresh analysis of one project.
`Server.serve` reads requests from a text of bytes and writes one line for each; it stops at the first request that
cannot be read, or when no more can be written. -/
namespace CallLineage

structure Server where
  root : Path
  discovery : DiscoveryConfig
  env : Config.Environment

/-- What a server writes to: the bytes so far, and how many more are taken, if that is limited. -/
structure Sink where
  written : Bytes
  room : Option Nat

namespace Sink

/-- Writes bytes, as many as are taken; the flag says whether all were. -/
def write (s : Sink) (bs : Bytes) : Sink × Bool :=
  match s.room with
  | none => (⟨s.written ++ bs, none⟩, true)
  | some n => (⟨s.written ++ bs.take n, some (n - bs.length)⟩, bs.length ≤ n)

end Sink

inductive ServeFailure
  | decode (fault : Json.Fault)
  | encode
  | write
  deriving DecidableEq

namespace ServeFailure

def message : ServeFailure → String
  | decode _ => "failed to decode request"
  | encode => "failed to encode response"
  | write => "failed to write response"

end ServeFailure

/-- What came of serving: how many requests were answered, what was written, and why it stopped early. -/
structure Served where
  count : Nat
  output : Bytes
  failure : Option ServeFailure

namespace Server

/-- The file of ignore rules for all directories, as it is when a request comes in. -/
def globalIgnore (s : Server) (t : FileTree) : Option Path := globalIgnore? t s.env

def getLineages : String := "GET_LINEAGES"

/-- Answers one request; requests of other kinds are answered with nothing. -/
def handle (s : Server) (t : FileTree) (r : Request) : Except Failure CodeAnalysis :=
  if r.kind == getLineages then do
    let a ← Analysis.ofDirectory t s.root s.discovery (s.globalIgnore t)
    return a.lineagesFor (r.fileName.map Path.mk)
  else .ok .empty

/-- The line that answers a request; a failed analysis is answered with nothing. -/
def answer (s : Server) (t : FileTree) (r : Request) : Bytes :=
  match s.handle t r with
  | .ok c => Utf8.encode c.toJson
  | .error _ => Utf8.encode CodeAnalysis.empty.toJson

def nextRequest (input : List Utf8.Symbol) :
    Except Json.Fault (Option (Request × List Utf8.Symbol)) := do
  let (s, rest) ← Json.Reader.peek input
  if s.isNone then return none
  return some (← Request.reader rest)

def serveFrom (s : Server) (t : FileTree) : Nat → Nat → Sink → List Utf8.Symbol → Served
  | 0, count, sink, _ => ⟨count, sink.written, none⟩
  | fuel + 1, count, sink, input =>
    match nextRequest input with
    | .error e => ⟨count, sink.written, some (.decode e)⟩
    | .ok none => ⟨count, sink.written, none⟩
    | .ok (some (request, rest)) =>
      match sink.write (s.answer t request) with
      | (sink, false) => ⟨count, sink.written, some .encode⟩
      | (sink, true) =>
        match sink.write [0x0a] with
        | (sink, false) => ⟨count, sink.written, some .write⟩
        | (sink, true) => serveFrom s t fuel (count + 1) sink rest

/-- Serves all requests of an input; at most `room` bytes are written, if that is limited. -/
def serve (s : Server) (t : FileTree) (input : Bytes) (room : Option Nat) : Served :=
  serveFrom s t (input.length + 1) 0 ⟨[], room⟩ (Utf8.symbols input)

end Server

end CallLineage
