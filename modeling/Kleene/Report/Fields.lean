import Kleene.Compilation
import Kleene.Report.Json

/-!
# The fields of reports

Which fields a report shows, under which names and in which order.
-/

namespace Kleene

def Json.ofVerdict (b : Option Bool) : Json := .ofOption .boolean b

def Json.ofNumber (n : Option Nat) : Json := .ofOption .number n

def Json.ofChar (c : Char) : Json := .text c.toString

def Snapshot.toJson (s : Snapshot) : Json :=
  .fields
    [ ("states", .list (s.states.map .number)),
      ("start", .number s.start),
      ("finals", .list (s.finals.map .number)),
      ("transitions",
        .list (s.transitions.map fun (p, l, q) => .list [.number p, .text l, .number q])) ]

def AlignmentStep.toJson {σ : Type} (letter : σ → Json) (s : AlignmentStep σ) : Json :=
  .fields
    [ ("from", .number s.source),
      ("to", .number s.target),
      ("symbol", letter s.symbol),
      ("cost", .number s.cost) ]

def CompilationReport.toJson (r : CompilationReport) : Json :=
  .fields
    [ ("regex", .text r.regex),
      ("postfix", .text r.postfixForm),
      ("reconstructed", .text r.reconstructed),
      ("nfa_states", .number r.nfaStates),
      ("nfa_transitions", .number r.nfaTransitions),
      ("dfa_states", .number r.dfaStates),
      ("dfa_complete", .boolean r.dfaComplete),
      ("minimized_states", .ofNumber r.minimizedStates),
      ("synthesized", .ofOption .text r.synthesized),
      ("equivalent", .ofVerdict r.equivalent) ]

def AcceptReport.toJson (r : AcceptReport) : Json :=
  .fields
    [ ("word", .text r.word),
      ("nfa", .boolean r.nfa),
      ("dfa", .boolean r.dfa),
      ("minimized", .ofVerdict r.minimized) ]

def CorrectionReport.toJson (r : CorrectionReport) : Json :=
  .fields
    [ ("word", .text r.word),
      ("distance", .ofNumber r.distance),
      ("entry_cost", .number r.entryCost),
      ("steps", .list (r.steps.map (AlignmentStep.toJson Json.ofChar))),
      ("corrected", .ofOption Snapshot.toJson r.corrected),
      ("corrected_accepts", .ofVerdict r.correctedAccepts) ]

end Kleene
