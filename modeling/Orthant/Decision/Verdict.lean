import Orthant.Journal
import Orthant.Decision.Certificate

/-! # The tri-state decision

The certified positive certificate with the least key is selected. The answer is unknown when the
rectangle of its `t` holds 1, and otherwise whether its `t` is at least 1.
-/

namespace Orthant

inductive Copositivity
  | holds
  | fails
  | unknown
  deriving DecidableEq

namespace Copositivity

def ofBool (b : Bool) : Copositivity := if b then holds else fails

def name : Copositivity → String
  | holds => "TRUE"
  | fails => "FALSE"
  | unknown => "UNKNOWN"

def text : Copositivity → String
  | holds => "true"
  | fails => "false"
  | unknown => "unknown"

def ofText (s : String) : Except Error Copositivity :=
  if s = "true" then .ok holds
  else if s = "false" then .ok fails
  else if s = "unknown" then .ok unknown
  else fail .value

def toBool (_ : Copositivity) : Except Error Bool := .error .verdictAsBool

end Copositivity

inductive Method
  | general
  | nonseparable
  deriving DecidableEq

namespace Method

def text : Method → String
  | general => "general"
  | nonseparable => "nonseparable"

def ofText (s : String) : Except Error Method :=
  if s = "general" then .ok general
  else if s = "nonseparable" then .ok nonseparable
  else fail .value

end Method

structure Decision where
  copositive : Copositivity
  method : Method
  /-- The real midpoint of the least positive `t`, `nan` if there is none. -/
  tMin : Double
  /-- The places of the certified positive certificates. -/
  positive : List Nat
  /-- The rectangle of the selected `t`. -/
  interval : Option Rectangle
  certificates : List Certificate

namespace Decision

def intervalText : Option Rectangle → Except Error String
  | none => .ok "None"
  | some r => r.text

def text (d : Decision) : Except Error String := do
  let i ← intervalText d.interval
  .ok ("copositive=" ++ d.copositive.text ++ " method=" ++ d.method.text ++ " t_min=" ++
    d.tMin.text ++ " positive=" ++ toString d.positive.length ++ " interval=" ++ i)

def positives (cs : List Certificate) : List (Certificate × Nat) :=
  cs.zipIdx.filter fun c => c.1.positive && c.1.certified

/-- The first element whose key no later one is below. -/
def least {α : Type} (best : α × Certificate.Key) : List (α × Certificate.Key) → α
  | [] => best.1
  | c :: cs => least (if c.2.lt best.2 then c else best) cs

def keyed (c : Certificate) : Except Error (Certificate × Certificate.Key) := do
  .ok (c, ← c.selectionKey)

def verdict (tMin : Double) (interval : Option Rectangle) : Copositivity :=
  if interval.any fun r => r.contains 1 0 then .unknown
  else .ofBool (Double.one.le tMin)

def ofCertificates (cs : List Certificate) (method : Method) (preferRefined : Bool) :
    Except Error Decision :=
  match positives cs with
  | [] => .ok ⟨.fails, method, .nan, [], none, cs⟩
  | c :: rest => do
    let first ← keyed c.1
    let others ← rest.mapM fun d => keyed d.1
    let best := least first others
    let t ← best.tMidpoint
    let interval ← best.tInterval preferRefined
    .ok ⟨verdict t.re interval, method, t.re, (c :: rest).map Prod.snd, interval, cs⟩

def record (d : Decision) : Record :=
  if d.positive.isEmpty then
    ⟨.debug, "decision", d.method.text ++ ": no positive certificate among " ++
      toString d.certificates.length⟩
  else
    let i := match intervalText d.interval with
      | .ok s => s
      | .error _ => ""
    ⟨.debug, "decision", d.method.text ++ ": t_min=" ++ d.tMin.text ++ " interval=" ++ i ++
      " -> " ++ d.copositive.text⟩

end Decision

end Orthant
