/-!
# Names shared with the code that instrumented programs are linked to
-/

namespace EdgeProbe.Symbol

/-- The global that holds the address of the coverage map. -/
def areaPointer : String := "__afl_area_ptr"

/-- The thread-local global that holds half the slot of the last probe. -/
def previousLocation : String := "__afl_prev_loc"

/-- The hook that probes report their identifier to. -/
def traceHook : String := "__afl_bb_trace"

/-- The function that says how large the coverage map has to be. -/
def areaSize : String := "__afl_get_area_size"

/-- The function that says how many identifiers there are, zero included. -/
def blockCount : String := "__afl_get_bbarea_size"

/-- How all these names begin. -/
def start : String := "__afl_"

/-- How the names of blocks with a probe begin. -/
def probeBlock : String := "AFL."

/-- The metadata of `main` that lists the functions reachable through pointers. -/
def pointedToList : String := "FuncPointedToList"

end EdgeProbe.Symbol
