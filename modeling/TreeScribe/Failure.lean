import TreeScribe.Flow.Error
import TreeScribe.Render.Text

namespace TreeScribe

inductive Failure where
  | render (error : RenderError)
  | attach (error : AttachError)
  | flow (error : FlowError)
  | cancelled
  deriving DecidableEq

namespace Failure

def ofRender : RenderError → Failure
  | .cancelled => cancelled
  | x => render x

def ofPlacing : PlacingError → Failure
  | .render x => ofRender x
  | .attach x => attach x

def ofFlow : FlowError → Failure
  | .cancelled => cancelled
  | x => flow x

def message : Failure → String
  | render x => x.message
  | attach x => x.message
  | flow x => x.message
  | cancelled => cancelledMessage

end Failure

end TreeScribe
