import SectorLedger.Failure

/-!
# Message logs

Several writers add to one log. Each writer has words of its own that it puts in front of every message,
and a writer can be derived from another with more such words.

* `MessageLog.derive`: a new writer.
* `MessageLog.add`, `require`, `requireSuccess`: a message, always or on a condition.
* `MessageLog.assertNone`, `assertExpected`: faults unless the log is as it should be.
-/

namespace SectorLedger

/-- A log with its writers. -/
structure MessageLog where
  /-- The messages, the oldest first. -/
  messages : List String := []
  /-- What each writer puts in front of its messages. -/
  writers : List String := [""]
  deriving DecidableEq, Repr

namespace MessageLog

instance : Inhabited MessageLog := ⟨{}⟩

/-- What a writer puts in front of its messages. A writer that does not exist is a fault. -/
def leadOf (log : MessageLog) (writer : Nat) : Outcome String :=
  match log.writers[writer]? with
  | some lead => .ok lead
  | none => .error .fault

/-- Derives a writer that puts more words in front. Answers its index. -/
def derive (log : MessageLog) (writer : Nat) (words : String) : Outcome (MessageLog × Nat) := do
  let lead ← log.leadOf writer
  return ({ log with writers := log.writers ++ [lead ++ words] }, log.writers.length)

/-- Adds a message. -/
def add (log : MessageLog) (writer : Nat) (message : String) : Outcome MessageLog := do
  let lead ← log.leadOf writer
  return { log with messages := log.messages ++ [lead ++ message] }

/-- Adds a message unless the condition holds. -/
def require (log : MessageLog) (writer : Nat) (condition : Bool) (message : String) : Outcome MessageLog :=
  if condition then .ok log else log.add writer message

/-- Adds a message with the words of an error, if there is one. -/
def requireSuccess (log : MessageLog) (writer : Nat) (error : Option String) (message : String) : Outcome MessageLog :=
  match error with
  | some text => log.add writer s!"{message}: {text}"
  | none => .ok log

/-- How many messages there are. -/
def count (log : MessageLog) : Nat := log.messages.length

/-- Whether there are no messages. -/
def isEmpty (log : MessageLog) : Bool := log.messages.isEmpty

/-- Faults if there is a message. -/
def assertNone (log : MessageLog) : Outcome Unit := SectorLedger.require log.isEmpty (.error .fault)

/-- Whether the first text occurs somewhere in the second. -/
def occursIn (part : List Char) : List Char → Bool
  | [] => part.isEmpty
  | c :: rest => part.isPrefixOf (c :: rest) || occursIn part rest

/-- Whether there is one message for each text, and each text occurs in its message. -/
def matchesInOrder : List String → List String → Bool
  | [], [] => true
  | message :: messages, text :: texts => occursIn text.toList message.toList && matchesInOrder messages texts
  | _, _ => false

/-- Faults unless there is one message for each text, in order, and each text occurs in its message. -/
def assertExpected (log : MessageLog) (texts : List String) : Outcome Unit :=
  SectorLedger.require (matchesInOrder log.messages texts) (.error .fault)

end MessageLog

end SectorLedger
