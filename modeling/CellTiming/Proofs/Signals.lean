import CellTiming.Proofs.Guards
import CellTiming.Proofs.LibertyAlphabet

/-! What pins are named after. A pin of a path is its output, which is an identifier. A pin of
a check, and the pin it is related to, is the first term of an event as it is written in the
call of a task, without its parentheses; it is an identifier where the term is one, but the
term may be any that an event admits. -/
namespace CellTiming

namespace CheckTask

end CheckTask

namespace Grammar

end Grammar

namespace Liberty

open Grammar

section Mentions

variable {timing : ModuleTiming} {ts : List Token} {call : CheckTask × List Token}
  {check : TimingCheck}

theorem call_of_check {found : List (CheckTask × List Token)} {checks : List TimingCheck}
    (checked : List.Forall₂ CallReads found checks) (member : check ∈ checks) :
    ∃ call ∈ found, CallReads call check := by
  induction checked with
  | nil => cases member
  | cons reads _ ih =>
    rcases List.mem_cons.mp member with rfl | later
    · exact ⟨_, List.mem_cons_self, reads⟩
    · obtain ⟨call, known, reads⟩ := ih later
      exact ⟨call, List.mem_cons_of_mem _ known, reads⟩

variable (spelled : ∀ t ∈ ts, t.Spelled)

include spelled

end Mentions

section Pins

private def gated : String :=
  "module M;specify(A=>Y[0])=1;$setup((D),C[1]&&&E,2);$hold(A&B,~D,3);endspecify endmodule"

end Pins

end Liberty

end CellTiming
