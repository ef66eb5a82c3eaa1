import Mathlib.Data.List.DropRight
import Sglang.Lib.OrderedDict
import Sglang.Lib.Utf8
import Sglang.Managers.CheckFinished

/-! The detokenizer.

The scheduler sends the new tokens of its requests in batches; the detokenizer keeps a status for
every request it has not seen the end of, decodes what is new, and sends on what may be shown. Text
that ends in the replacement character may still change: of it only a printable part is shown. -/
namespace Sglang.Managers

/-! ### Text -/

def isChineseChar (c : Char) : Bool :=
  let cp := c.toNat
  decide (cp ≥ 0x4E00 ∧ cp ≤ 0x9FFF) || decide (cp ≥ 0x3400 ∧ cp ≤ 0x4DBF) ||
    decide (cp ≥ 0x20000 ∧ cp ≤ 0x2A6DF) ||
    decide (cp ≥ 0x2A700 ∧ cp ≤ 0x2B73F) || decide (cp ≥ 0x2B740 ∧ cp ≤ 0x2B81F) ||
      decide (cp ≥ 0x2B820 ∧ cp ≤ 0x2CEAF) ||
    decide (cp ≥ 0xF900 ∧ cp ≤ 0xFAFF) || decide (cp ≥ 0x2F800 ∧ cp ≤ 0x2FA1F)

def findPrintableText (text : Text) : Text :=
  if text.getLast? = some '\n' then text
  else if text.getLast?.any isChineseChar then text
  else if text.dropLast.getLast?.any isChineseChar then text.dropLast
  -- up to the last space
  else text.rdropWhile (· ≠ ' ')

/-- Python's `find`. -/
def find (text matched : Text) : Option Nat :=
  (List.range (text.length + 1)).find? fun i => matched <+: text.drop i

/-- `trim_matched_stop` of a text. A matched string that is empty counts as none. -/
def trimMatchedStopText (output : Text) (finishedReason : Option FinishReason) (noStopTrim : Bool) :
    Text :=
  let trim (matched : Text) :=
    if matched = [] then output else ((find output matched).map output.take).getD output
  if noStopTrim then output
  else match finishedReason with
    | some (.matchedStr matched) => trim matched
    | some (.matchedRegex matched) => trim matched
    | _ => output

/-- `trim_matched_stop` of token ids. A matched token 0 counts as none. -/
def trimMatchedStopIds (isToolCallParserGptOss : Bool) (output : List Int)
    (finishedReason : Option FinishReason) (noStopTrim : Bool) : Option (List Int) :=
  if noStopTrim then some output
  else match finishedReason with
    | some (.matchedToken matched) =>
      if matched = 0 then some output
      else output.getLast?.map fun last => if last = 200012 ∧ isToolCallParserGptOss then output
        else output.dropLast
    | _ => some output

/-! ### What the scheduler sends -/

/-- One request's part of a `BatchTokenIDOutput`. -/
structure TokenIdOutput where
  rid : String
  finishedReason : Option FinishReason
  decodedText : Text
  decodeIds : List Int
  readOffset : Nat
  noStopTrim : Bool
deriving DecidableEq

/-- A request as far as the sending of its output goes. `offsets` are `surr_offset` and
`read_offset`. -/
structure StreamReq where
  rid : String
  originInputIdsUnpadded : List Int
  noStopTrim : Bool := false
  outputIdsThroughStop : List Int := []
  offsets : Option (Nat × Nat) := none
  surrAndDecodeIds : List Int := []
  curDecodeIdsLen : Nat := 0
  sendDecodeIdOffset : Nat := 0

namespace StreamReq

def initIncrementalDetokenize (r : StreamReq) : StreamReq × Nat :=
  match r.offsets with
  | none =>
    let readOffset := r.originInputIdsUnpadded.length
    let surrOffset := readOffset - 5
    ({ r with
       offsets := some (surrOffset, readOffset)
       surrAndDecodeIds := r.originInputIdsUnpadded.drop surrOffset ++ r.outputIdsThroughStop
       curDecodeIdsLen := r.outputIdsThroughStop.length }, readOffset - surrOffset)
  | some (surrOffset, readOffset) =>
    ({ r with
       surrAndDecodeIds := r.surrAndDecodeIds ++ r.outputIdsThroughStop.drop r.curDecodeIdsLen
       curDecodeIdsLen := r.outputIdsThroughStop.length }, readOffset - surrOffset)

/-- What `stream_output` sends for a request. -/
def streamOutput (r : StreamReq) (finishedReason : Option FinishReason) :
    StreamReq × TokenIdOutput :=
  let (r, readOffset) := r.initIncrementalDetokenize
  ({r with sendDecodeIdOffset := r.surrAndDecodeIds.length},
    { rid := r.rid, finishedReason, decodedText := [], decodeIds := r.surrAndDecodeIds.drop r.sendDecodeIdOffset,
      readOffset, noStopTrim := r.noStopTrim })

/-- What is sent for an output that grows by chunks. -/
def sends (r : StreamReq) : List (List Int × Option FinishReason) → List TokenIdOutput
  | [] => []
  | (chunk, reason) :: rest =>
    let (r, sent) :=
      {r with outputIdsThroughStop := r.outputIdsThroughStop ++ chunk}.streamOutput reason
    sent :: r.sends rest

end StreamReq

/-! ### The manager -/

structure DecodeStatus where
  decodedText : Text
  decodeIds : List Int
  surrOffset : Nat
  readOffset : Nat
  sentOffset : Nat := 0

structure DetokenizerManager where
  tokenizer : Tokenizer
  isToolCallParserGptOss : Bool := false
  capacity : Nat
  decodeStatus : OrderedDict String DecodeStatus := {}

namespace DecodeStatus

def create (e : TokenIdOutput) : DecodeStatus where
  decodedText := e.decodedText
  decodeIds := e.decodeIds
  surrOffset := 0
  readOffset := e.readOffset

/-- The status with the tokens of a batch. -/
def receive (s : Option DecodeStatus) (e : TokenIdOutput) : DecodeStatus :=
  match s with
  | none => create e
  | some s => {s with decodeIds := s.decodeIds ++ e.decodeIds}

def surrIds (s : DecodeStatus) : List Int := (s.decodeIds.take s.readOffset).drop s.surrOffset

/-- Whether text can be taken as it is. -/
def complete (newText : Text) : Bool :=
  !newText.isEmpty && newText.getLast? != some Utf8.replacement

/-- The status after new text, and what of the new text is shown behind the decoded text. -/
def advance (s : DecodeStatus) (newText : Text) (finished : Bool) : DecodeStatus × Text :=
  if finished then (s, newText)
  else if complete newText then
    ({ s with
       decodedText := s.decodedText ++ newText
       surrOffset := s.readOffset
       readOffset := s.decodeIds.length }, [])
  else (s, findPrintableText newText)

/-- The incremental string, and the status with what is sent. -/
def emit (s : DecodeStatus) (newText : Text) (e : TokenIdOutput) : DecodeStatus × Text :=
  let (s, newText) := s.advance newText e.finishedReason.isSome
  let outputStr := trimMatchedStopText (s.decodedText ++ newText) e.finishedReason e.noStopTrim
  ({s with sentOffset := outputStr.length}, outputStr.drop s.sentOffset)

end DecodeStatus

namespace DetokenizerManager

section
variable (d : DetokenizerManager)

/-- `LimitedCapacityDict.__setitem__`. -/
def setItem (rid : String) (s : DecodeStatus) : Option DetokenizerManager :=
  if d.decodeStatus.items.length ≥ d.capacity then
    if d.decodeStatus.items = [] then none
    else some {d with decodeStatus := d.decodeStatus.popFirst.set rid s}
  else some {d with decodeStatus := d.decodeStatus.set rid s}

/-- The status of a request with the tokens of a batch. -/
def receive (d : DetokenizerManager) (e : TokenIdOutput) : Option DetokenizerManager :=
  let s := DecodeStatus.receive (d.decodeStatus.get? e.rid) e
  if (d.decodeStatus.get? e.rid).isSome then
    some {d with decodeStatus := d.decodeStatus.set e.rid s}
  else d.setItem e.rid s

/-- The first loop: for every request the ids to read, and those among them that were read. -/
def collect :
    List TokenIdOutput → DetokenizerManager → Option
    (DetokenizerManager × List (List Int × List Int))
  | [], d => some (d, [])
  | e :: batch, d => do
    let s := DecodeStatus.receive (d.decodeStatus.get? e.rid) e
    let d ← d.receive e
    let readIds ← trimMatchedStopIds d.isToolCallParserGptOss
      (s.decodeIds.drop s.surrOffset) e.finishedReason e.noStopTrim
    let (d, ids) ← collect batch d
    some (d, (readIds, s.surrIds) :: ids)

/-- The second loop for one request. -/
def emitOne (e : TokenIdOutput) (readIds surrIds : List Int) : Option (DetokenizerManager × Text) :=
  -- a request whose status is gone is an error
  (d.decodeStatus.get? e.rid).map fun s =>
    let readText := d.tokenizer.decode readIds
    let surrText := d.tokenizer.decode surrIds
    let (s, incremental) := s.emit (readText.drop surrText.length) e
    if e.finishedReason.isSome then
      ({d with decodeStatus := d.decodeStatus.erase e.rid}, incremental)
    else ({d with decodeStatus := d.decodeStatus.set e.rid s}, incremental)

def emitAll :
    List (TokenIdOutput × List Int × List Int) → DetokenizerManager → Option
    (DetokenizerManager × List Text)
  | [], d => some (d, [])
  | (e, readIds, surrIds) :: batch, d => do
    let (d, incremental) ← d.emitOne e readIds surrIds
    let (d, incrementals) ← emitAll batch d
    some (d, incremental :: incrementals)

def decodeBatchTokenIdOutput (batch : List TokenIdOutput) :
    Option (DetokenizerManager × List Text) := do
  let (d, ids) ← collect batch d
  emitAll (batch.zip ids) d

end

/-- One batch after the other; the strings of each. -/
def decodeAll :
    List (List TokenIdOutput) → DetokenizerManager → Option (DetokenizerManager × List (List Text))
  | [], d => some (d, [])
  | batch :: batches, d => do
    let (d, out) ← d.decodeBatchTokenIdOutput batch
    let (d, outs) ← decodeAll batches d
    some (d, out :: outs)

end DetokenizerManager

end Sglang.Managers
