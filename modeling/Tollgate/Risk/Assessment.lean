import Tollgate.Run.StepResult

/-!
# Assessments

An assessment scores a run from zero to one on six counts.  Four are read from
the risk profile of the input; the other two are shares of troubled steps and
of anomalous outputs.
-/

namespace Tollgate

structure Assessment where
  technical : Float
  safety : Float
  financial : Float
  compliance : Float
  execution : Float
  anomaly : Float
  weightedTotal : Float

abbrev Assessor := Json → List StepResult → Option Json → Assessment

namespace Assessment

def clamp (x : Float) : Float :=
  if x < 0.0 then 0.0 else if 1.0 < x then 1.0 else x

def profileScore (input : Json) (name : String) : Float :=
  let score := ((input.get? "risk_profile").bind (Json.get? name)).bind Json.float?
  ((score.filter fun x => x.isFinite).map clamp).getD 0.0

def share (part whole : Nat) : Float :=
  if whole = 0 then 0.0 else Float.ofNat part / Float.ofNat whole

def isAnomalous (output : Json) : Bool :=
  output.isNull || ((output.get? "result").map Json.isNull).getD false

def isExecuted (result : StepResult) : Bool :=
  result.status != .skipped || result.error.isSome

def isTroubled (result : StepResult) : Bool :=
  result.status == .failed || result.status == .completedWithFallback

/-- The outputs of the steps, and the final output unless a step produced it. -/
def outputs (results : List StepResult) (finalOutput : Option Json) : List Json :=
  let produced := results.filterMap StepResult.output
  produced ++ (finalOutput.filter fun output => !produced.any fun other => other == output).toList

/-- The weights of the six scores, in order, add up to one. -/
def weights : List Float := [0.25, 0.25, 0.15, 0.15, 0.10, 0.10]

def weightedSum (scores : List Float) : Float :=
  (List.zipWith (fun score weight => score * weight) scores weights).foldl (· + ·) 0.0

def weigh : Assessor := fun input results finalOutput =>
  let outputs := outputs results finalOutput
  let technical := profileScore input "technical"
  let safety := profileScore input "safety"
  let financial := profileScore input "financial"
  let compliance := profileScore input "compliance"
  let execution := share (results.countP isTroubled) (results.countP isExecuted)
  let anomaly := share (outputs.countP isAnomalous) outputs.length
  { technical, safety, financial, compliance, execution, anomaly
    weightedTotal :=
      clamp (weightedSum [technical, safety, financial, compliance, execution, anomaly]) }

def fields (assessment : Assessment) : List (String × Json) :=
  [("technical", Json.ofFloat assessment.technical),
    ("safety", Json.ofFloat assessment.safety),
    ("financial", Json.ofFloat assessment.financial),
    ("compliance", Json.ofFloat assessment.compliance),
    ("execution", Json.ofFloat assessment.execution),
    ("anomaly", Json.ofFloat assessment.anomaly),
    ("weighted_total", Json.ofFloat assessment.weightedTotal)]

def toValue (assessment : Assessment) : Json := .object (Json.ofPairs assessment.fields)

end Assessment

end Tollgate
