import CodeLift.Event
import CodeLift.Text.Lowercase

/-!
# The log

Log lines have a level and name the part of the program that they come from. Lines above the chosen
threshold are dropped.
-/

namespace CodeLift

/-- How important a log line is, or which lines are kept. -/
inductive LogLevel where
  /-- Nothing is kept. -/
  | off
  /-- Errors. -/
  | error
  /-- Problems that do not stop the program. -/
  | warn
  /-- What the program does. -/
  | info
  /-- How it does it. -/
  | debug
  /-- Everything. -/
  | trace
deriving DecidableEq, Repr

namespace LogLevel

/-- More important levels are smaller. -/
def rank : LogLevel → Nat
  | off => 0
  | error => 1
  | warn => 2
  | info => 3
  | debug => 4
  | trace => 5

/-- The name as it stands in a log line, at least five characters wide. -/
def label : LogLevel → String
  | off => "OFF  "
  | error => "ERROR"
  | warn => "WARN "
  | info => "INFO "
  | debug => "DEBUG"
  | trace => "TRACE"

/-- The level with this name, in any letter case. -/
def ofName? (name : String) : Option LogLevel :=
  match Text.lower name with
  | "off" => some off
  | "error" => some error
  | "warn" => some warn
  | "info" => some info
  | "debug" => some debug
  | "trace" => some trace
  | _ => none

end LogLevel

/-- The parts of the program that write log lines. -/
inductive LogSource where
  /-- The command line. -/
  | program
  /-- The registry of decoders. -/
  | decoder
  /-- Discovery. -/
  | discovery
  /-- Scanning of single blocks. -/
  | scan
  /-- The code map. -/
  | codeMap
deriving DecidableEq, Repr

/-- The name of a part in log lines. -/
def LogSource.label : LogSource → String
  | program => "nuclide_lift"
  | decoder => "nuclide_lift::decoder"
  | discovery => "nuclide_lift::translate"
  | scan => "nuclide_lift::translate::block"
  | codeMap => "nuclide_lift::translate::stitch"

/-- A line of the log. -/
structure LogLine where
  /-- Its level. -/
  level : LogLevel
  /-- Where it comes from. -/
  source : LogSource
  /-- What it says. -/
  message : String
deriving DecidableEq, Repr

namespace LogLine

/-- The line as it is shown. -/
def text (l : LogLine) : String := l.level.label ++ " " ++ l.source.label ++ "] " ++ l.message

/-- Whether the line is kept under a threshold. -/
def passes (l : LogLine) (threshold : LogLevel) : Bool := l.level.rank ≤ threshold.rank

end LogLine

/-- The log line for an event. An attempt to decode has none. -/
def Event.logLine? : Event → Option LogLine
  | started size entry =>
    some ⟨.debug, .discovery,
      "Translating " ++ Text.decimal size ++ " bytes from " ++ entry.text⟩
  | attempted _ => none
  | limitReached entry limit =>
    some ⟨.debug, .scan,
      "Block " ++ entry.text ++ " hit the " ++ Text.decimal limit ++ " instruction limit"⟩
  | scanned entry stop insns exits =>
    some ⟨.debug, .discovery,
      "Block " ++ entry.text ++ ".." ++ stop.text ++ ": " ++ Text.decimal insns ++ " insns, " ++
        Text.decimal exits ++ " exits"⟩
  | failed failure => some ⟨.warn, .discovery, failure.message⟩
  | outside target =>
    some ⟨.debug, .discovery, "Target " ++ target.text ++ " is outside the region"⟩
  | split head addr => some ⟨.debug, .codeMap, "Split block " ++ head.text ++ " at " ++ addr.text⟩
  | dropped source target kind =>
    some ⟨.warn, .codeMap,
      "Dropping " ++ kind.text ++ " edge " ++ source.text ++ " -> " ++ target.text ++
        ": target never translated"⟩
  | finished entry blocks edges diagnostics =>
    some ⟨.info, .discovery,
      "Translated " ++ entry.text ++ ": " ++ Text.decimal blocks ++ " blocks, " ++
        Text.decimal edges ++ " edges, " ++ Text.decimal diagnostics ++ " diagnostics"⟩

end CodeLift
