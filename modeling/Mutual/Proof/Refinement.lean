import Mutual.Proof.Sequential

/-!
# A list used by one thread is a plain list
-/

namespace Mutual

open Concurrency

variable {T : Type} [BEq T]

namespace Op

def calls : Op T → List (SharedList.Call T)
  | push data => [.push data]
  | extend iter => SharedList.extend iter
  | setEnforceNoneq enforceNoneq => [.setEnforceNoneq enforceNoneq]
  | pop => [.pop]
  | drainNext => [SharedList.drainNext]
  | removeCount func count => [.removeCount func count]
  | removeAll func => [SharedList.removeAll func]
  | removeSearch func => [SharedList.removeSearch func]
  | remove toRemove => [SharedList.remove toRemove]

def answer : Op T → List (SharedList.Reply T) → Answer T
  | pop, [.popped data] | drainNext, [.popped data] => .entry data
  | removeCount .., [.removed output] | removeAll _, [.removed output] => .entries output
  | removeSearch _, [.removed output] | remove _, [.removed output] =>
      .entry (SharedList.firstRemoved output)
  | _, _ => .unit

/-- The elements an operation is given to put on the list. -/
def pushed : Op T → List T
  | push data => [data]
  | extend iter => iter
  | _ => []

end Op

namespace SharedList

variable {orderFn : Option (T → T → Ordering)}

/-- One thread performs an operation and gets an answer. -/
def Performs (orderFn : Option (T → T → Ordering)) (list : SharedList T) (op : Op T)
    (answer : Answer T) (final : SharedList T) : Prop :=
  ∃ replies, (object orderFn).Executes list op.calls replies final ∧ answer = op.answer replies

inductive Runs (orderFn : Option (T → T → Ordering)) :
    SharedList T → List (Op T) → List (Answer T) → SharedList T → Prop
  | nil {list : SharedList T} : Runs orderFn list [] [] list
  | cons {list next final : SharedList T} {op : Op T} {ops : List (Op T)} {answer : Answer T}
      {answers : List (Answer T)} : Performs orderFn list op answer next →
      Runs orderFn next ops answers final →
      Runs orderFn list (op :: ops) (answer :: answers) final

theorem Performs.deterministic {list left right : SharedList T} {op : Op T}
    {answerL answerR : Answer T} (hleft : Performs orderFn list op answerL left)
    (hright : Performs orderFn list op answerR right) : left = right ∧ answerL = answerR := by
  obtain ⟨repliesL, hleft, rfl⟩ := hleft
  obtain ⟨repliesR, hright, rfl⟩ := hright
  obtain ⟨rfl, rfl⟩ := hleft.deterministic hright
  exact ⟨rfl, rfl⟩

theorem Runs.deterministic {list left right : SharedList T} {ops : List (Op T)}
    {answersL answersR : List (Answer T)} (hleft : Runs orderFn list ops answersL left)
    (hright : Runs orderFn list ops answersR right) : left = right ∧ answersL = answersR := by
  induction hleft generalizing answersR with
  | nil =>
      cases hright
      exact ⟨rfl, rfl⟩
  | cons hop _ ih =>
      cases hright with
      | cons hop' hrest' =>
          obtain ⟨rfl, rfl⟩ := hop.deterministic hop'
          obtain ⟨rfl, rfl⟩ := ih hrest'
          exact ⟨rfl, rfl⟩

/-- The memory is that of the abstract list, and every call that only reads tells its content. -/
structure Agrees (orderFn : Option (T → T → Ordering)) (list : SharedList T)
    (plain : PlainList T) : Prop where
  shows : list.Shows plain
  len : (object orderFn).Completes list (enter orderFn .len) list
    (.size (UInt64.ofNat plain.elements.length))
  iter : Iterates orderFn list headSlot plain.elements
  find : ∀ func : List T → T → Bool,
    (object orderFn).Completes list (enter orderFn (find func)) list
      (.found (firstMatch func [] plain.elements))
  findMap : ∀ {O : Type} (func : List T → T → Option O), ∃ found,
    (object orderFn).Completes list (enter orderFn (findMap func)) list (.found found) ∧
      (found.bind fun entry => func entry.1 entry.2) = firstImage func [] plain.elements
  contains : ∀ element : T, ∃ found,
    (object orderFn).Completes list (enter orderFn (contains element)) list (.found found) ∧
      found.isSome = plain.elements.any fun data => data == element

theorem Shows.agrees {list : SharedList T} {plain : PlainList T} (hlist : list.Shows plain) :
    Agrees orderFn list plain := by
  obtain ⟨slots, hlayout⟩ := hlist.represents
  have hsearch := search_completes orderFn hlist
  refine ⟨hlist, ?_, iterates hlayout.chain hlayout.immFree, hsearch, ?_, ?_⟩
  · simp [enter, hlayout.len]
  · intro O func
    exact ⟨_, hsearch _, (firstImage_eq func [] _).symm⟩
  · intro element
    exact ⟨_, hsearch _, firstMatch_isSome (fun data => data == element) [] _⟩

variable (orderFn)

omit [BEq T] in
theorem extend_executes {list : SharedList T} {plain : PlainList T} (hlist : list.Shows plain)
    (iter : List T) :
    ∃ replies final inserted, (object orderFn).Executes list (extend iter) replies final ∧
      final.Shows (iter.foldl (fun list data => list.push orderFn data) plain) ∧
      inserted.Sublist iter ∧ Edits list inserted final := by
  induction iter generalizing list plain with
  | nil => exact ⟨[], list, [], .nil, hlist, .refl _, .nil⟩
  | cons data iter ih =>
      obtain ⟨next, inserted, hpush, hnext, hinserted, hedits⟩ := push_edits orderFn hlist data
      obtain ⟨replies, final, rest, hrun, hfinal, hrest, hedits'⟩ := ih hnext
      exact ⟨.unit :: replies, final, inserted ++ rest, .cons hpush hrun, hfinal,
        hinserted.append hrest, hedits.trans hedits'⟩

theorem performs_of_completes {list final : SharedList T} {op : Op T} {call : Call T}
    {result : Reply T} {answer : Answer T} (hcalls : op.calls = [call])
    (hrun : (object orderFn).Completes list (enter orderFn call) final result)
    (hanswer : answer = op.answer [result]) : Performs orderFn list op answer final := by
  refine ⟨[result], ?_, hanswer⟩
  rw [hcalls]
  exact .cons hrun .nil

/-- **One operation.** It comes to an end, does to the list what it does to the abstract one, and
does it by edits that put no other elements on the list than those it is given. -/
theorem apply_edits {list : SharedList T} {plain : PlainList T} (hlist : list.Shows plain)
    (op : Op T) :
    ∃ final inserted, Performs orderFn list op (plain.apply orderFn op).2 final ∧
      final.Shows (plain.apply orderFn op).1 ∧ inserted.Sublist op.pushed ∧
      Edits list inserted final := by
  have hremove (func : List T → T → Bool) (count : UInt32) :=
    removeCount_edits orderFn hlist func count
  have hfirst (func : List T → T → Bool) : Answer.entry (plain.removeSearch func).2 =
      .entry (firstRemoved (plain.removeCount func (1 : UInt32).toNat).2) := by
    rw [firstRemoved_eq_head?]
    exact congrArg Answer.entry (takeOut_one func [] plain.elements).symm
  cases op with
  | push data =>
      obtain ⟨final, inserted, hrun, hfinal, hedits⟩ := push_edits orderFn hlist data
      exact ⟨final, inserted, performs_of_completes orderFn rfl hrun rfl, hfinal, hedits⟩
  | extend iter =>
      obtain ⟨replies, final, inserted, hrun, hfinal, hedits⟩ := extend_executes orderFn hlist iter
      exact ⟨final, inserted, ⟨replies, hrun, rfl⟩, hfinal, hedits⟩
  | setEnforceNoneq enforceNoneq =>
      obtain ⟨final, hrun, hfinal, hedits⟩ := setEnforceNoneq_edits orderFn hlist enforceNoneq
      exact ⟨final, [], performs_of_completes orderFn rfl hrun rfl, hfinal, .refl _, hedits⟩
  | pop =>
      obtain ⟨final, hrun, hfinal, hedits⟩ := pop_edits orderFn hlist
      exact ⟨final, [], performs_of_completes orderFn rfl hrun rfl, hfinal, .refl _, hedits⟩
  | drainNext =>
      obtain ⟨final, hrun, hfinal, hedits⟩ := pop_edits orderFn hlist
      exact ⟨final, [], performs_of_completes orderFn rfl hrun rfl, hfinal, .refl _, hedits⟩
  | removeCount func count =>
      obtain ⟨final, hrun, hfinal, hedits⟩ := hremove func count
      exact ⟨final, [], performs_of_completes orderFn rfl hrun rfl, hfinal, .refl _, hedits⟩
  | removeAll func =>
      obtain ⟨final, hrun, hfinal, hedits⟩ := hremove func 0xFFFFFFFF
      exact ⟨final, [], performs_of_completes orderFn rfl hrun rfl, hfinal, .refl _, hedits⟩
  | removeSearch func =>
      obtain ⟨final, hrun, hfinal, hedits⟩ := hremove func 1
      exact ⟨final, [], performs_of_completes orderFn rfl hrun (hfirst _), hfinal, .refl _, hedits⟩
  | remove toRemove =>
      obtain ⟨final, hrun, hfinal, hedits⟩ := hremove (fun _ entry => entry == toRemove) 1
      exact ⟨final, [], performs_of_completes orderFn rfl hrun (hfirst _), hfinal, .refl _, hedits⟩

theorem apply_performs {list : SharedList T} {plain : PlainList T} (hlist : list.Shows plain)
    (op : Op T) :
    ∃ final, Performs orderFn list op (plain.apply orderFn op).2 final ∧
      final.Shows (plain.apply orderFn op).1 := by
  obtain ⟨final, _, hrun, hfinal, -⟩ := apply_edits orderFn hlist op
  exact ⟨final, hrun, hfinal⟩

theorem run_performs {list : SharedList T} {plain : PlainList T} (hlist : list.Shows plain)
    (ops : List (Op T)) :
    ∃ final, Runs orderFn list ops (plain.run orderFn ops).2 final ∧
      final.Shows (plain.run orderFn ops).1 := by
  induction ops generalizing list plain with
  | nil => exact ⟨list, .nil, hlist⟩
  | cons op ops ih =>
      obtain ⟨next, hperforms, hnext⟩ := apply_performs orderFn hlist op
      obtain ⟨final, hrest, hfinal⟩ := ih hnext
      exact ⟨final, .cons hperforms hrest, hfinal⟩

/-- **The list is a plain list** for a thread on its own: whatever it does from the creation of the
list on comes to an end, and each way it does has the answers and the elements of the abstract
list. -/
theorem sequential_refines (orderFn : Option (T → T → Ordering)) (ops : List (Op T)) :
    (∃ answers final, Runs orderFn new ops answers final) ∧
      ∀ answers final, Runs orderFn new ops answers final →
        answers = (PlainList.empty.run orderFn ops).2 ∧
          Agrees orderFn final (PlainList.empty.run orderFn ops).1 := by
  obtain ⟨final, hrun, hfinal⟩ := run_performs orderFn new_shows ops
  refine ⟨⟨_, final, hrun⟩, ?_⟩
  intro answers final' hrun'
  obtain ⟨rfl, rfl⟩ := hrun.deterministic hrun'
  exact ⟨rfl, hfinal.agrees⟩

end SharedList

end Mutual
