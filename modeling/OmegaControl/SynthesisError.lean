import OmegaControl.IdentSet.Basic
import OmegaControl.Progress

/-!
# Why a control problem is refused

The checked operations validate their arguments before they start, and may verify
their result. Each constructor of `SynthesisError` is one cause, with what is
needed to say where it lies; `message` puts it into words.
-/

namespace OmegaControl

/-- Which arguments of a control problem are meant. -/
inductive Role where
  | plant
  | specification
  | both
  deriving DecidableEq

/-- How a role is written. -/
def Role.text : Role → String
  | .plant => "plant"
  | .specification => "specification"
  | .both => "plant and specification"

/-- Why a checked operation has no result. -/
inductive SynthesisError where
  /-- the two alphabets differ -/
  | alphabetMismatch (onlyInPlant onlyInSpecification : EventSet)
  /-- some of the events given for a role are not in the alphabet of the plant -/
  | eventsNotInAlphabet (role : String) (events : EventSet)
  /-- an argument is not deterministic -/
  | notDeterministic (role : Role)
  /-- the automaton with this name is not omega-trim -/
  | notOmegaTrim (name : String)
  /-- the observer cancelled the computation -/
  | cancelled
  /-- the result does not have the property that was verified -/
  | verificationFailed (what : String)
  deriving DecidableEq

/-- An error in words. -/
def SynthesisError.message : SynthesisError → String
  | .alphabetMismatch onlyInPlant onlyInSpecification =>
    "alphabets of plant and specification do not match (only in plant: " ++ onlyInPlant.text ++
      ", only in specification: " ++ onlyInSpecification.text ++ ")"
  | .eventsNotInAlphabet role events =>
    "not all " ++ role ++ " events are contained in the plant alphabet: " ++ events.text
  | .notDeterministic role => role.text ++ " must be deterministic"
  | .notOmegaTrim name => "generator '" ++ name ++ "' must be omega-trim"
  | .cancelled => "synthesis was cancelled"
  | .verificationFailed what => "result failed verification: " ++ what

end OmegaControl
