import Mathlib.Data.List.Infix
import Mathlib.Data.List.TakeWhile

/-! When a request is finished.

`check_finished` looks at the tokens that were accepted since it was last called: one token after
a decode step, several after a speculative step or a diffusion block. It checks, in this order, an
abort, the length limit, the grammar, stop tokens, tokens outside the vocabulary, and stop strings.

Tokens are integers, since a token outside the vocabulary may be negative; text is a list of
characters. A raised exception is `none`. -/
namespace Sglang.Managers

abbrev Text := List Char

/-- A tokenizer as requests use it. -/
structure Tokenizer where
  eosTokenId : Option Int := none
  additionalStopTokenIds : List Int := []
  decode : List Int → Text := fun _ => []
  encode : Text → List Int := fun _ => []

/-- A stop pattern: what it is found in, and `get_max_seq_length` of it. -/
structure StopRegex where
  pattern : Text
  search : Text → Bool
  maxSeqLength : Nat

structure SamplingParams where
  maxNewTokens : Nat := 128
  stopStrs : List Text := []
  /-- In the order in which the set is iterated. -/
  stopTokenIds : List Int := []
  stopRegexStrs : List StopRegex := []
  ignoreEos : Bool := false
  noStopTrim : Bool := false

namespace SamplingParams

/-- `normalize`: how many tokens the longest stop string has when the tokenizer spells it. -/
def stopStrMaxLen (params : SamplingParams) (tokenizer : Option Tokenizer) : Nat :=
  (params.stopStrs.map fun stopStr =>
    match tokenizer with
    | some tokenizer => (tokenizer.encode stopStr).length
    | none => stopStr.length).foldl max 0

def stopRegexMaxLen (params : SamplingParams) : Nat :=
  (params.stopRegexStrs.map (·.maxSeqLength)).foldl max 0

end SamplingParams

inductive FinishReason
  | matchedToken (matched : Int)
  | matchedStr (matched : Text)
  | matchedRegex (matched : Text)
  | length (length : Nat)
  | abort
deriving DecidableEq

/-- The class of a finish reason. -/
inductive FinishKind
  | matchedToken
  | matchedStr
  | matchedRegex
  | length
  | abort
deriving DecidableEq

def FinishReason.kind : FinishReason → FinishKind
  | matchedToken _ => .matchedToken
  | matchedStr _ => .matchedStr
  | matchedRegex _ => .matchedRegex
  | length _ => .length
  | abort => .abort

/-- A request as far as its output goes. -/
structure OutputReq where
  samplingParams : SamplingParams := {}
  tokenizer : Option Tokenizer := none
  /-- In the order in which the set is iterated. -/
  eosTokenIds : List Int := []
  vocabSize : Int
  /-- Whether the grammar is terminated after some output. -/
  grammar : Option (List Int → Bool) := none
  decodedText : Text := []
  outputIds : List Int := []
  finishedReason : Option FinishReason := none
  finishedLen : Option Nat := none
  toFinish : Option FinishReason := none

namespace OutputReq

section
variable (r : OutputReq)

def outputIdsThroughStop : List Int :=
  match r.finishedLen with
  | some n => r.outputIds.take n
  | none => r.outputIds

/-- Python's `l[-n:]`. -/
def lastTokens (l : List Int) (n : Nat) : List Int := if n = 0 then l else l.drop (l.length - n)

/-- Whether there is anything to search the decoded text for. -/
def hasStopStr : Bool :=
  !r.samplingParams.stopStrs.isEmpty || !r.samplingParams.stopRegexStrs.isEmpty

def tailStr : Option Text :=
  if r.hasStopStr then
    let maxLenTailStr :=
      max (r.samplingParams.stopStrMaxLen r.tokenizer + 1) (r.samplingParams.stopRegexMaxLen + 1)
    let tailLen := min maxLenTailStr r.outputIds.length
    r.tokenizer.map fun tokenizer => tokenizer.decode (lastTokens r.outputIds tailLen)
  else some []

/-- Whether a token ends the output. -/
def isStopToken (tokenId : Int) : Bool :=
  decide (tokenId ∈ r.samplingParams.stopTokenIds) || decide (tokenId ∈ r.eosTokenIds) ||
    match r.tokenizer with
    | some tokenizer =>
      decide (tokenizer.eosTokenId = some tokenId) ||
        decide (tokenId ∈ tokenizer.additionalStopTokenIds)
    | none => false

section
variable (newAcceptedTokens : List Int)

def checkTokenBasedFinish : Option OutputReq :=
  if r.samplingParams.ignoreEos then none
  else (newAcceptedTokens.findIdx? r.isStopToken).map fun i =>
    { r with
      finishedReason := some (.matchedToken (newAcceptedTokens.getD i 0))
      finishedLen := some (r.outputIds.length - newAcceptedTokens.length + i + 1) }

def outOfVocab (tokenId : Int) : Bool := decide (tokenId > r.vocabSize) || decide (tokenId < 0)

/-- What is put in the place of a token outside the vocabulary. -/
def replacement (tokenId : Int) : Int :=
  r.eosTokenIds.headD (r.samplingParams.stopTokenIds.headD tokenId)

def checkVocabBoundaryFinish : Option OutputReq :=
  (newAcceptedTokens.findIdx? r.outOfVocab).map fun i =>
    let offset := r.outputIds.length - newAcceptedTokens.length + i
    { r with
      outputIds := r.outputIds.set offset (r.replacement (newAcceptedTokens.getD i 0))
      finishedReason := some (.matchedStr "NaN happened".toList)
      finishedLen := some (offset + 1) }

/-- The first stop string, then the first stop pattern that is found. -/
def checkStrBasedFinish : Option (Option FinishReason) :=
  if r.hasStopStr then
    r.tailStr.map fun tailStr =>
      match r.samplingParams.stopStrs.find? fun stopStr => stopStr <:+: tailStr ∨
        stopStr <:+: r.decodedText with
      | some stopStr => some (.matchedStr stopStr)
      | none =>
        (r.samplingParams.stopRegexStrs.find? (·.search tailStr)).map (.matchedRegex ·.pattern)
  else some none

/-- The checks of the new tokens one by one, then of the text. -/
def checkNewTokens : Option OutputReq :=
  match r.checkTokenBasedFinish newAcceptedTokens with
  | some r => some r
  | none =>
    match r.checkVocabBoundaryFinish newAcceptedTokens with
    | some r => some r
    | none => r.checkStrBasedFinish.map fun reason => {r with finishedReason := reason}

end

def grammarTerminated : Bool :=
  match r.grammar with
  | some isTerminated => isTerminated r.outputIds
  | none => false

def checkFinished (newAcceptedLen : Nat) : Option OutputReq :=
  if r.finishedReason.isSome then some r
  else if r.toFinish.isSome then some {r with finishedReason := r.toFinish, toFinish := none}
  else if r.outputIds.length ≥ r.samplingParams.maxNewTokens then
    some { r with
      finishedReason := some (.length r.samplingParams.maxNewTokens)
      finishedLen := some r.samplingParams.maxNewTokens }
  else if r.grammarTerminated then
    r.outputIds.getLast?.map fun last => {r with finishedReason := some (.matchedToken last)}
  else r.checkNewTokens (lastTokens r.outputIds newAcceptedLen)

/-- A group of accepted tokens. -/
def accept (group : List Int) : Option OutputReq :=
  {r with outputIds := r.outputIds ++ group}.checkFinished group.length

def acceptAll (groups : List (List Int)) : Option OutputReq := groups.foldlM accept r

end

end OutputReq

end Sglang.Managers
