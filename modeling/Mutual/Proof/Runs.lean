import Mutual.Concurrency.Protocol
import Mutual.Proof.Layout

/-!
# Runs of a SharedList

The kinds of calls the results about concurrent runs are restricted to, and conditions on the stores
of a run.
-/

namespace Mutual.SharedList

open Concurrency

variable {T : Type} {orderFn : Option (T → T → Ordering)} {ι : Type}

def Call.Pushes : Call T → Prop
  | push _ => True
  | _ => False

instance : DecidablePred (Call.Pushes (T := T))
  | .push _ => .isTrue trivial
  | .pop | .removeCount _ _ | .setEnforceNoneq _ | .len | .isEmpty | .search _ | .any _
  | .iterNext _ | .iterMutNext _ | .dropMut _ => .isFalse id

/-- `pop` and `remove_count`, of which the other removals are made. -/
def Call.Removes : Call T → Prop
  | pop | removeCount _ _ => True
  | _ => False

instance : DecidablePred (Call.Removes (T := T))
  | .pop | .removeCount _ _ => .isTrue trivial
  | .push _ | .setEnforceNoneq _ | .len | .isEmpty | .search _ | .any _ | .iterNext _
  | .iterMutNext _ | .dropMut _ => .isFalse id

def Call.PushesOrPops : Call T → Prop
  | push _ | pop => True
  | _ => False

instance : DecidablePred (Call.PushesOrPops (T := T))
  | .push _ | .pop => .isTrue trivial
  | .removeCount _ _ | .setEnforceNoneq _ | .len | .isEmpty | .search _ | .any _ | .iterNext _
  | .iterMutNext _ | .dropMut _ => .isFalse id

def Call.Reads : Call T → Prop
  | search _ | any _ | iterNext _ => True
  | _ => False

instance : DecidablePred (Call.Reads (T := T))
  | .search _ | .any _ | .iterNext _ => .isTrue trivial
  | .push _ | .pop | .removeCount _ _ | .setEnforceNoneq _ | .len | .isEmpty | .iterMutNext _
  | .dropMut _ => .isFalse id

/-- The calls that change the list, other than those made on the data lent by `iter_mut`. -/
def Call.Writes : Call T → Prop
  | push _ | pop | removeCount _ _ | setEnforceNoneq _ => True
  | _ => False

instance : DecidablePred (Call.Writes (T := T))
  | .push _ | .pop | .removeCount _ _ | .setEnforceNoneq _ => .isTrue trivial
  | .len | .isEmpty | .search _ | .any _ | .iterNext _ | .iterMutNext _ | .dropMut _ => .isFalse id

def Call.ReadsOrWrites (call : Call T) : Prop := call.Reads ∨ call.Writes

instance : DecidablePred (Call.ReadsOrWrites (T := T)) := fun call =>
  inferInstanceAs (Decidable (call.Reads ∨ call.Writes))

instance : ∀ (config : Config (object orderFn) ι) action,
    Decidable (OnlyCalls Call.Removes config action) := fun _ _ => inferInstance

instance : ∀ (config : Config (object orderFn) ι) action,
    Decidable (OnlyCalls Call.Pushes config action) := fun _ _ => inferInstance

instance : ∀ (config : Config (object orderFn) ι) action,
    Decidable (OnlyCalls Call.PushesOrPops config action) := fun _ _ => inferInstance

instance : ∀ (config : Config (object orderFn) ι) action,
    Decidable (OnlyCalls Call.Writes config action) := fun _ _ => inferInstance

instance : ∀ (config : Config (object orderFn) ι) action,
    Decidable (OnlyCalls Call.ReadsOrWrites config action) := fun _ _ => inferInstance

def ascending (entry data : Nat) : Ordering := compare data entry

/-- If `t` is about to store something in a slot, the store meets `clean`. -/
def OnStore (clean : SharedList T → Slot → Option (Node T) → Prop)
    (config : Config (object orderFn) ι) (t : ι) : Prop :=
  match config.instr? t with
  | some (.cow (.store slot content)) => clean config.state slot content
  | _ => True

instance (clean : SharedList T → Slot → Option (Node T) → Prop)
    [∀ list slot content, Decidable (clean list slot content)]
    (config : Config (object orderFn) ι) (t : ι) : Decidable (OnStore clean config t) := by
  unfold OnStore
  split <;> infer_instance

theorem OnStore.clean {clean : SharedList T → Slot → Option (Node T) → Prop}
    {config : Config (object orderFn) ι} {t : ι} {call : Call T} {slot : Slot}
    {content : Option (Node T)} {next : Unit → Prog (sig T) (Outcome T)}
    (hstore : OnStore clean config t) (hat : config.At t call (.cow (.store slot content)) next) :
    clean config.state slot content := by
  rw [OnStore, hat.instr?_eq] at hstore
  exact hstore

theorem OnStore.mono {clean weaker : SharedList T → Slot → Option (Node T) → Prop}
    (himp : ∀ list slot content, clean list slot content → weaker list slot content)
    {config : Config (object orderFn) ι} {t : ι} (hstore : OnStore clean config t) :
    OnStore weaker config t := by
  unfold OnStore at hstore ⊢
  split at hstore
  · exact himp _ _ _ hstore
  · trivial

/-- If `t` is about to jump to a label, the jump meets `clean`. -/
def OnJump (clean : SharedList T → Label T → Prop) (config : Config (object orderFn) ι) (t : ι) :
    Prop :=
  match config.label? t with
  | some label => clean config.state label
  | none => True

instance (clean : SharedList T → Label T → Prop) [∀ list label, Decidable (clean list label)]
    (config : Config (object orderFn) ι) (t : ι) : Decidable (OnJump clean config t) := by
  unfold OnJump
  split <;> infer_instance

theorem OnJump.clean {clean : SharedList T → Label T → Prop} {config : Config (object orderFn) ι}
    {t : ι} {call : Call T} {label : Label T} (hjump : OnJump clean config t)
    (hthread : config.thread t = .busy call (.ret (.inl label))) : clean config.state label := by
  rw [OnJump, Config.label?_eq hthread] at hjump
  exact hjump

end Mutual.SharedList
