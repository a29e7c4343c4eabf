/-
# From a request to an outcome

Arguments that are understood make a request.  The run of the program is
then the run of the request: it leaves the same session behind, and its
outcome is how the request came out.
-/
import DocStamp.Command.Run
import DocStamp.Proofs.Files.Operations

namespace DocStamp.Command

open Files (Session)

theorem run_of_perform {program : Program} {args : List String} {request : Request}
    (hargs : Request.parse? program args = some request) {env : Environment} {input : String}
    {s s' : Session} {r : Except Failure Unit}
    (h : s.run (perform program env input request) = (r, s')) :
    (run program env args input : StateM Session Outcome) s = (.ofExcept r, s') := by
  have hrun : (run program env args input : StateM Session Outcome) s =
      (.ofExcept (s.run (perform program env input request)).1,
        (s.run (perform program env input request)).2) := by
    simp only [run, hargs]
    rfl
  rw [hrun, h]

end DocStamp.Command
