/-
# What the clients of a shared object see

An object is kept by several servers together, and its clients call it wherever they are.  All they
see is a history: calls are invoked and, some of them, responded to, one call overlapping with the
other.  The history is linearizable if it is as though the calls had been carried out one after the
other by a single server, and none of them before it was invoked or after it was responded to.

Servers that agree on a log of the calls achieve that under three conditions
(`linearizable_of_log`): a response is what the calls before it in the log make of it, nothing is in
the log in front of it that has not been invoked, and a call that is invoked after a response is
behind that call in the log.
-/
import Mathlib.Data.List.Nodup
import Mathlib.Data.List.Pairwise
import Mathlib.Data.Nat.Notation

namespace Linearizability

/-- An object, as a single server would keep it. -/
structure Object (Op State Res : Type*) where
  init : State
  effect : Op → State → State
  answers : State → Op → Res → Prop

inductive HistoryEvent (Id Op Res : Type*)
  | invoked (id : Id) (op : Op)
  | responded (id : Id) (res : Res)
  deriving DecidableEq

variable {Id Op State Res : Type*}

/-! ## 1. Linearizations -/

/-- The state after some operations. -/
def Object.after (object : Object Op State Res) (ops : List Op) : State :=
  ops.foldl (fun state op => object.effect op state) object.init

/-- The response to `i` comes before the invocation of `j`. -/
def Precedes (h : List (HistoryEvent Id Op Res)) (i j : Id) : Prop :=
  ∃ res op, [HistoryEvent.responded i res, HistoryEvent.invoked j op].Sublist h

/-- The calls, in the order in which they are carried out. -/
structure Linearizes (object : Object Op State Res) (h : List (HistoryEvent Id Op Res))
    (calls : List (Id × Op)) : Prop where
  once : (calls.map Prod.fst).Nodup
  invoked : ∀ call ∈ calls, HistoryEvent.invoked call.1 call.2 ∈ h
  answered : ∀ i res, HistoryEvent.responded i res ∈ h → ∃ before op after,
    calls = before ++ (i, op) :: after ∧
      object.answers (object.after (before.map Prod.snd)) op res
  inTime : ∀ call ∈ calls, ∀ call' ∈ calls, Precedes h call.1 call'.1 →
    [call, call'].Sublist calls

def Linearizable (object : Object Op State Res) (h : List (HistoryEvent Id Op Res)) : Prop :=
  ∃ calls, Linearizes object h calls

/-- What one more event adds to the order of time. -/
theorem precedes_append_iff {h : List (HistoryEvent Id Op Res)} {e : HistoryEvent Id Op Res}
    {i j : Id} :
    Precedes (h ++ [e]) i j ↔
      Precedes h i j ∨ (∃ op, e = .invoked j op) ∧ ∃ res, HistoryEvent.responded i res ∈ h := by
  constructor
  · rintro ⟨res, op, hsub⟩
    obtain ⟨front, last, hsplit, hfront, hlast⟩ := List.sublist_append_iff.mp hsub
    rcases List.sublist_singleton.mp hlast with rfl | rfl
    · rw [List.append_nil] at hsplit
      exact Or.inl ⟨res, op, hsplit ▸ hfront⟩
    · have hparts : [HistoryEvent.responded i res] ++ [HistoryEvent.invoked j op] = front ++ [e] :=
        hsplit
      obtain ⟨hinit, he⟩ := List.append_inj' hparts rfl
      refine Or.inr ⟨⟨op, (List.singleton_inj.mp he).symm⟩, res, ?_⟩
      exact List.singleton_sublist.mp (hinit ▸ hfront)
  · rintro (⟨res, op, hsub⟩ | ⟨⟨op, rfl⟩, res, hmem⟩)
    · exact ⟨res, op, hsub.trans (List.sublist_append_left h [e])⟩
    · exact ⟨res, op, (List.singleton_sublist.mpr hmem).append (List.Sublist.refl _)⟩

/-! ## 2. A log of the calls -/

section Log

variable (object : Object Op State Res) (ops : ℕ → Option Op)

/-- The state after the operations of the log up to an index. -/
def stateAt : ℕ → State
  | 0 => object.init
  | n + 1 => (ops (n + 1)).elim (stateAt n) fun op => object.effect op (stateAt n)

/-- The calls of the log up to an index, each under its own. -/
def callsUpTo : ℕ → List (ℕ × Op)
  | 0 => []
  | n + 1 => callsUpTo n ++ ((ops (n + 1)).map fun op => (n + 1, op)).toList

variable {object ops}

theorem mem_callsUpTo {n : ℕ} {call : ℕ × Op} :
    call ∈ callsUpTo ops n ↔ 0 < call.1 ∧ call.1 ≤ n ∧ ops call.1 = some call.2 := by
  induction n with
  | zero =>
    refine iff_of_false List.not_mem_nil ?_
    rintro ⟨hpos, hle, -⟩
    exact absurd hpos (Nat.not_lt.mpr hle)
  | succ n ih =>
    rw [callsUpTo, List.mem_append, ih, Option.mem_toList, Option.map_eq_some_iff]
    constructor
    · rintro (⟨hpos, hle, hop⟩ | ⟨op, hop, rfl⟩)
      · exact ⟨hpos, Nat.le_succ_of_le hle, hop⟩
      · exact ⟨Nat.succ_pos n, Nat.le_refl _, hop⟩
    · rintro ⟨hpos, hle, hop⟩
      rcases Nat.le_or_eq_of_le_succ hle with hle | heq
      · exact Or.inl ⟨hpos, hle, hop⟩
      · rw [heq] at hop
        exact Or.inr ⟨call.2, hop, Prod.ext heq.symm rfl⟩

theorem pairwise_callsUpTo (n : ℕ) :
    (callsUpTo ops n).Pairwise fun call call' => call.1 < call'.1 := by
  induction n with
  | zero => exact List.Pairwise.nil
  | succ n ih =>
    rw [callsUpTo]
    refine List.pairwise_append.mpr ⟨ih, ?_, fun call hcall call' hcall' => ?_⟩
    · cases ops (n + 1) with
      | none => exact List.Pairwise.nil
      | some op => exact List.pairwise_singleton _ _
    · rw [Option.mem_toList, Option.map_eq_some_iff] at hcall'
      obtain ⟨op, -, rfl⟩ := hcall'
      exact Nat.lt_succ_of_le (mem_callsUpTo.mp hcall).2.1

theorem after_callsUpTo (n : ℕ) :
    object.after ((callsUpTo ops n).map Prod.snd) = stateAt object ops n := by
  induction n with
  | zero => rfl
  | succ n ih =>
    rw [callsUpTo, List.map_append, Object.after, List.foldl_append, stateAt, ← ih]
    cases ops (n + 1) <;> rfl

/-- In front of a call are the calls of the smaller indices. -/
theorem callsUpTo_eq_append {n i : ℕ} {op : Op} (hin : (i, op) ∈ callsUpTo ops n) :
    ∃ after, callsUpTo ops n = callsUpTo ops (i - 1) ++ (i, op) :: after := by
  induction n with
  | zero => exact absurd hin List.not_mem_nil
  | succ n ih =>
    rw [callsUpTo, List.mem_append] at hin
    rw [callsUpTo]
    rcases hin with hin | hlast
    · obtain ⟨after, hafter⟩ := ih hin
      exact ⟨_, by rw [hafter, List.append_assoc, List.cons_append]⟩
    · rw [Option.mem_toList, Option.map_eq_some_iff] at hlast
      obtain ⟨op', hop, heq⟩ := hlast
      cases heq
      refine ⟨[], ?_⟩
      rw [hop, Nat.add_sub_cancel]
      rfl

/-- Of two elements of an ordered list, the smaller one comes first. -/
theorem pair_sublist {α : Type*} {r : α → α → Prop} {l : List α} (hordered : l.Pairwise r)
    (hasymm : ∀ a b, r a b → ¬ r b a) {a b : α} (ha : a ∈ l) (hb : b ∈ l) (hab : r a b) :
    [a, b].Sublist l := by
  obtain ⟨front, rest, rfl⟩ := List.append_of_mem hb
  obtain ⟨-, hrest, -⟩ := List.pairwise_append.mp hordered
  rcases List.mem_append.mp ha with hfront | hin
  · exact (List.singleton_sublist.mpr hfront).append
      (List.cons_sublist_cons.mpr (List.nil_sublist rest))
  · rcases List.mem_cons.mp hin with rfl | hin
    · exact absurd hab (hasymm _ _ hab)
    · exact absurd hab (hasymm _ _ ((List.pairwise_cons.mp hrest).1 a hin))

/-- The greatest index that has been responded to, or 0. -/
theorem exists_last (h : List (HistoryEvent ℕ Op Res)) :
    ∃ n, (n = 0 ∨ ∃ res, HistoryEvent.responded n res ∈ h) ∧
      ∀ i res, HistoryEvent.responded i res ∈ h → i ≤ n := by
  induction h with
  | nil => exact ⟨0, Or.inl rfl, fun i res hmem => absurd hmem List.not_mem_nil⟩
  | cons e h ih =>
    obtain ⟨n, hn, hlast⟩ := ih
    have hkeep : n = 0 ∨ ∃ res, HistoryEvent.responded n res ∈ e :: h :=
      hn.imp_right fun ⟨res, hmem⟩ => ⟨res, List.mem_cons_of_mem e hmem⟩
    cases e with
    | invoked i op =>
      refine ⟨n, hkeep, fun j res hmem => hlast j res ?_⟩
      rcases List.mem_cons.mp hmem with heq | hmem
      · cases heq
      · exact hmem
    | responded i res =>
      rcases Nat.le_total i n with hle | hle
      · refine ⟨n, hkeep, fun j res' hmem => ?_⟩
        rcases List.mem_cons.mp hmem with heq | hmem
        · cases heq
          exact hle
        · exact hlast j res' hmem
      · refine ⟨i, Or.inr ⟨res, List.mem_cons_self⟩, fun j res' hmem => ?_⟩
        rcases List.mem_cons.mp hmem with heq | hmem
        · cases heq
          exact Nat.le_refl _
        · exact Nat.le_trans (hlast j res' hmem) hle

/-- **The rule of the log.** -/
theorem linearizable_of_log {h : List (HistoryEvent ℕ Op Res)}
    (hanswered : ∀ i res, HistoryEvent.responded i res ∈ h →
      0 < i ∧ ∃ op, ops i = some op ∧ object.answers (stateAt object ops (i - 1)) op res)
    (hinvoked : ∀ i res, HistoryEvent.responded i res ∈ h → ∀ j op, 0 < j → j ≤ i →
      ops j = some op → HistoryEvent.invoked j op ∈ h)
    (hinTime : ∀ i j, Precedes h i j → i < j) : Linearizable object h := by
  obtain ⟨n, hn, hlast⟩ := exists_last h
  refine ⟨callsUpTo ops n, ?_, fun call hcall => ?_, fun i res hres => ?_,
    fun call hcall call' hcall' hprecedes => ?_⟩
  · rw [List.nodup_iff_pairwise_ne, List.pairwise_map]
    exact (pairwise_callsUpTo n).imp Nat.ne_of_lt
  · obtain ⟨hpos, hle, hop⟩ := mem_callsUpTo.mp hcall
    rcases hn with rfl | ⟨res, hres⟩
    · exact absurd hpos (Nat.not_lt.mpr hle)
    · exact hinvoked n res hres call.1 call.2 hpos hle hop
  · obtain ⟨hpos, op, hop, hanswer⟩ := hanswered i res hres
    obtain ⟨after, hafter⟩ := callsUpTo_eq_append
      (mem_callsUpTo.mpr ⟨hpos, hlast i res hres, hop⟩ : (i, op) ∈ callsUpTo ops n)
    refine ⟨callsUpTo ops (i - 1), op, after, hafter, ?_⟩
    rw [after_callsUpTo]
    exact hanswer
  · exact pair_sublist (pairwise_callsUpTo n) (fun _ _ => Nat.lt_asymm) hcall hcall'
      (hinTime _ _ hprecedes)

end Log

end Linearizability
