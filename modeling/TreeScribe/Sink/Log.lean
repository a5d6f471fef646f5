import TreeScribe.Sink.Call

namespace TreeScribe

structure CallLog where
  heard : List Call

namespace CallLog

def empty : CallLog := ⟨[]⟩

def calls (w : CallLog) : List Call := w.heard.reverse

end CallLog

instance : Sink CallLog where
  put _ w c := ⟨c :: w.heard⟩
  location _ := none
  lastRange _ := none

theorem CallLog.calls_putAll (t : Tree) (w : CallLog) (l : List Call) :
    (Sink.putAll t w l).calls = w.calls ++ l := by
  induction l generalizing w with
  | nil => exact (List.append_nil _).symm
  | cons c l ih =>
      have hc : (Sink.put t w c).calls = w.calls ++ [c] := List.reverse_cons
      rw [Sink.putAll_cons, ih, hc, List.append_assoc, List.singleton_append]

/-- Sends calls, first to last, and asks for the places after each. -/
def Sink.readings {W : Type} [Sink W] (t : Tree) :
    W → List Call → W × List (Option Location × Option TextRange)
  | w, [] => (w, [])
  | w, c :: rest =>
    let w := put t w c
    let (last, places) := readings t w rest
    (last, (location w, lastRange w) :: places)

end TreeScribe
