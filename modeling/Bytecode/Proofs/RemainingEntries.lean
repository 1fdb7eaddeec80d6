import Mathlib.Algebra.GroupWithZero.Nat
import Mathlib.Tactic.Common
import Bytecode.Proofs.ByteOffset
import Bytecode.Proofs.CounterHistory

/-!
What is left of a program behind its counter.

Moving on from an entry reaches those behind it in order, each of them once, and then finds none
however often it is asked. So a walk ends, it gives exactly these entries, and together with the
entry that it begins on they write the rest of the byte stream. Main statement: `walk_of_moves`.
-/

namespace Bytecode

namespace Program

variable {p : Program}

lemma moves_next_of_le (h : p.size ≤ p.pc + 1) (k : Nat) :
    p.moves (List.replicate k .next) = (p, List.replicate k (.reached none, p.pc)) := by
  induction k with
  | zero => rfl
  | succ k ih => simp only [List.replicate_succ, moves_cons, move_next_of_le h, ih]

lemma lt_size_of_drop_eq_cons {e : Entry} {es : List Entry} {i : Nat}
    (h : p.entries.toList.drop i = e :: es) :
    i < p.size ∧ p.get? i = some e ∧ p.entries.toList.drop (i + 1) = es := by
  have hget : p.entries.toList[i]? = some e := by
    rw [← List.head?_drop, h]
    rfl
  refine ⟨(List.getElem?_eq_some_iff.1 hget).1, (get?_eq p i).trans hget, ?_⟩
  rw [← List.tail_drop, h]
  rfl

lemma moves_next_of_drop_eq {es : List Entry} (h : p.entries.toList.drop (p.pc + 1) = es) :
    p.moves (List.replicate es.length .next) =
      ({ p with pc := p.pc + es.length },
        (es.zipIdx (p.pc + 1)).map fun e => (.reached (some e.1), e.2)) := by
  induction es generalizing p with
  | nil => rfl
  | cons e es ih =>
    obtain ⟨hlt, hget, hrest⟩ := lt_size_of_drop_eq_cons h
    have hmove : p.move .next = ({ p with pc := p.pc + 1 }, .reached (some e)) := by
      rw [move_next_of_lt hlt, hget]
    have hmoves := ih (p := { p with pc := p.pc + 1 }) hrest
    simp only [List.length_cons, List.replicate_succ, moves_cons, hmove, hmoves, List.zipIdx_cons,
      List.map_cons, Nat.add_assoc, Nat.add_comm 1]

lemma walkFrom_eq (h : p.pc < p.size ∨ p.pc = 0 ∧ p.size = 0) (seen : Array Entry) :
    (walkFrom seen p).1.toList = seen.toList ++ p.entries.toList.drop (p.pc + 1) ∧
      (walkFrom seen p).2 = { p with pc := p.size - 1 } := by
  fun_induction walkFrom seen p with
  | case1 seen p hn =>
    have hle : p.size ≤ p.pc + 1 := next?_eq_none_iff.1 hn
    have hpc : p.pc = p.size - 1 := by omega
    rw [List.drop_eq_nil_of_le hle, List.append_nil, ← hpc]
    exact ⟨rfl, rfl⟩
  | case2 seen p e q hn ih =>
    obtain ⟨he, rfl⟩ := next?_eq_some_iff.1 hn
    have hlt : p.pc + 1 < p.size := (Array.getElem?_eq_some_iff.1 he).1
    obtain ⟨hseen, hend⟩ := ih (.inl hlt)
    have hdrop : p.entries.toList.drop (p.pc + 1) =
        e :: p.entries.toList.drop (p.pc + 1 + 1) := by
      rw [List.drop_eq_getElem?_toList_append, ← get?_eq, he]
      rfl
    refine ⟨?_, hend⟩
    rw [hseen, hdrop, Array.toList_push, List.append_assoc]
    rfl

lemma walk_eq (h : p.pc < p.size ∨ p.pc = 0 ∧ p.size = 0) :
    p.walk.1.toList = p.entries.toList.drop (p.pc + 1) ∧
      p.walk.2 = { p with pc := p.size - 1 } :=
  walkFrom_eq h #[]

lemma size_walk (h : p.pc < p.size ∨ p.pc = 0 ∧ p.size = 0) :
    p.walk.1.size = p.size - 1 - p.pc := by
  rw [← Array.length_toList, (walk_eq h).1, List.length_drop, Array.length_toList, ← size]
  omega

lemma moves_next_eq_walk (h : p.pc < p.size ∨ p.pc = 0 ∧ p.size = 0) (k : Nat) :
    p.moves (List.replicate (p.size - 1 - p.pc + k) .next) =
      ({ p with pc := p.size - 1 },
        ((p.walk.1.toList.zipIdx (p.pc + 1)).map fun e => (.reached (some e.1), e.2)) ++
          List.replicate k (.reached none, p.size - 1)) := by
  have hlength : p.walk.1.toList.length = p.size - 1 - p.pc := size_walk h
  have hpc : p.pc + (p.size - 1 - p.pc) = p.size - 1 := by omega
  have hnext := moves_next_of_drop_eq (walk_eq h).1.symm
  have hlast := moves_next_of_le (p := { p with pc := p.size - 1 })
    (by change p.size ≤ p.size - 1 + 1; omega) k
  rw [hlength, hpc] at hnext
  rw [List.replicate_add, moves_append, hnext, hlast]

lemma ReadFrom.flatMap_encode_walk {bytes : List UInt8} (h : ReadFrom bytes p) :
    (p.current?.toList ++ p.walk.1.toList).flatMap Entry.encode = bytes.drop (p.offset p.pc) := by
  rw [(walk_eq h.pc_valid).1, current?, get?_eq, ← List.drop_eq_getElem?_toList_append,
    ← Entry.drop_offset, h.flatMap_encode, offset]

/-- **A walk comes to an end, and reaches each entry that is left once.** From wherever moves led,
it gives the entries behind the current one in order and stands on the last entry then. Asked one
by one, `next` gives the same entries, each at its index, and behind them none as often as it is
asked again. The current entry and those of the walk write the rest of the stream, and all of it
from the first entry on. -/
theorem walk_of_moves {bytes : List UInt8} {p : Program} (h : disassemble bytes = .ok p)
    (ms : List Move) :
    let q := (p.moves ms).1
    q.walk.1.toList = p.entries.toList.drop (q.pc + 1) ∧
    q.walk.1.size = p.size - 1 - q.pc ∧
    q.walk.2 = { q with pc := p.size - 1 } ∧
    (∀ k, q.moves (List.replicate (p.size - 1 - q.pc + k) .next) =
      ({ q with pc := p.size - 1 },
        ((q.walk.1.toList.zipIdx (q.pc + 1)).map fun e => (.reached (some e.1), e.2)) ++
          List.replicate k (.reached none, p.size - 1))) ∧
    (q.current?.toList ++ q.walk.1.toList).flatMap Entry.encode = bytes.drop (p.offset q.pc) ∧
    (p.current?.toList ++ p.walk.1.toList).flatMap Entry.encode = bytes := by
  intro q
  have hfresh := ReadFrom.of_disassemble h
  have hread : ReadFrom bytes q := hfresh.moves ms
  have hentries : q.entries = p.entries := entries_moves p ms
  have hsize : q.size = p.size := size_moves p ms
  obtain ⟨hseen, hend⟩ := walk_eq hread.pc_valid
  have hrest := hread.flatMap_encode_walk
  have hall := hfresh.flatMap_encode_walk
  rw [hentries] at hseen
  rw [offset, hentries] at hrest
  rw [pc_eq_zero_of_disassemble h] at hall
  rw [← hsize]
  exact ⟨hseen, size_walk hread.pc_valid, hend, moves_next_eq_walk hread.pc_valid, hrest, hall⟩

theorem walk_of_moves_operand :
    let bytes : List UInt8 := [0x29, 0x21, 0x21, 0x29, 0xff, 0, 0, 0, 0, 0x21, 0x30, 0x3a]
    let d := Operand.ofUInt64 0x2129ff0000000021
    let p := ofInstructions [.plain .jumpDst, .push d, .plain .jumpi, .plain .exit]
    let q := (p.moves [.jump 2]).1
    disassemble bytes = .ok p ∧ q.current? = some (.data d) ∧
      q.walk.1.toList = [.op .jumpi, .op .exit] ∧ q.walk.2.pc = 4 ∧
      (q.current?.toList ++ q.walk.1.toList).flatMap Entry.encode = d.bytes ++ [0x30, 0x3a] := by
  intro bytes d p q
  have hp : disassemble bytes = .ok p := by cbv
  obtain ⟨hseen, -, hend, -, hrest, -⟩ := walk_of_moves hp [.jump 2]
  refine ⟨hp, by decide +kernel, hseen.trans (by decide +kernel), ?_, hrest.trans ?_⟩
  · exact (congrArg Program.pc hend).trans (by decide +kernel)
  · decide +kernel

end Program

end Bytecode
