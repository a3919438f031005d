import Mutual.Concurrency.Composite
import Mutual.Concurrency.Protocol

/-!
# Protocols of objects made of parts

The code of a method runs inside the calls it makes to the parts. Where the code of a part follows a
protocol of its own, and this protocol fits into one of the whole object, the method follows the
latter as long as it stays in the call.
-/

namespace Concurrency

variable {Part : Object} {κ G : Type} [DecidableEq κ] {C : Composite Part κ}

/-- Protocol `Q` of the part fits into protocol `P` of the object, where a method has called the part
and goes on with `cont`. -/
structure Hosts (P : Protocol C.object G) (Q : Protocol Part G) (call : C.Call) (inner : Part.Call)
    (part : κ) (cont : C.Cont) : Prop where
  may : ∀ g instr, Q.may inner g instr → P.may call g (part, instr)
  move : ∀ g instr answer g', P.move call g (part, instr) answer g' → Q.move inner g instr answer g'
  fail : ∀ g, Q.fail inner g → P.fail call g
  arrive : ∀ g label, Q.arrive inner label g → P.arrive call (.within part label cont) g
  finish : ∀ g reply, Q.finish inner reply g → P.Obeys call (C.resume part cont reply) g

/-- **Code of a part** that follows the part's protocol follows the object's. -/
theorem Hosts.obeys {P : Protocol C.object G} {Q : Protocol Part G} {call : C.Call}
    {inner : Part.Call} {part : κ} {cont : C.Cont} (hosts : Hosts P Q call inner part cont)
    {code : Part.Code} {g : G} (hobeys : Q.Obeys inner code g) :
    P.Obeys call (C.within part cont code) g := by
  induction code generalizing g with
  | ret outcome =>
      cases outcome with
      | inl label => exact hosts.arrive g label hobeys
      | inr reply => exact hosts.finish g reply hobeys
  | panic message => exact hosts.fail g hobeys
  | op instr next ih =>
      obtain ⟨hmay, hnext⟩ := hobeys
      refine ⟨hosts.may g instr hmay, ?_⟩
      intro answer g' hmove
      exact ih answer (hnext answer g' (hosts.move g instr answer g' hmove))

/-- The protocol that asks nothing of the code. -/
def Protocol.free (O : Object) (g : G) : Protocol O G where
  rest := g
  start _ _ := True
  may _ _ _ := True
  move _ _ _ _ _ := True
  fail _ _ := True
  arrive _ _ _ := True
  leave _ _ _ := True
  finish _ _ _ := True

theorem Protocol.free_obeys {O : Object} (rest : G) (call : O.Call) (code : O.Code) (g : G) :
    (Protocol.free O rest).Obeys call code g := by
  induction code generalizing g with
  | ret outcome =>
      cases outcome with
      | inl label => trivial
      | inr result => trivial
  | panic message => trivial
  | op instr next ih => exact ⟨trivial, fun answer g' _ => ih answer g'⟩

end Concurrency
