import ApiGateway.Utils.ParseInt

/-!
# Configuration

The records of `config.h`, with their default values.
-/

namespace ApiGateway.Core

/-- `struct Backend`. -/
structure Backend where
  host : Bytes
  port : Int
  deriving DecidableEq

/-- `struct Route`. The member `prefix` of the source is `path` here. -/
structure Route where
  path : Bytes := []
  backends : List Backend := []
  deriving DecidableEq

/-- `struct GatewayConfig`. -/
structure GatewayConfig where
  listenPort : Int := 8080
  keepAliveTimeoutSec : Int := 10
  threadCount : Int := 4
  backendTimeoutMs : Int := 3000
  maxRequestSize : Int := 65536
  maxEpollEvents : Int := 512
  idleCleanupIntervalSec : Int := 5
  poolMaxIdlePerHost : Int := 10
  poolIdleTimeoutSec : Int := 60
  maxConnections : Int := 10000
  maxQueueSize : Int := 2048
  maxDeferredPerRound : Int := 256
  routes : List Route := []
  deriving DecidableEq

end ApiGateway.Core
