import TdsWasm.LibOrderedMap
import TdsWasm.LibJson
import TdsWasm.LibMachine
import TdsWasm.LibProgram
import TdsWasm.LibText
import TdsWasm.AbiTypes
import TdsWasm.AbiContent
import TdsWasm.HostHttp
import TdsWasm.HostPolicy
import TdsWasm.HostLlm
import TdsWasm.HostTools
import TdsWasm.HostRuntime
import TdsWasm.AbiRoundTrip
import TdsWasm.LibJsonText
import TdsWasm.HostSteps
import TdsWasm.SecuritySpend
import TdsWasm.SecurityEgress
import TdsWasm.SecurityPending
import TdsWasm.SecurityToolSurface
import TdsWasm.AgentLoop
import TdsWasm.AgentTurns
import TdsWasm.AgentConversation
import TdsWasm.AgentAccounting
import TdsWasm.AgentChannel
import TdsWasm.AgentSandbox
import TdsWasm.BridgeChannel
import TdsWasm.BridgeRecord
import TdsWasm.BridgeHandoff
import TdsWasm.BridgeReport
import TdsWasm.AbiEcho
import TdsWasm.BridgeRelay
import TdsWasm.BridgeEcho
import TdsWasm.SecurityListing
import TdsWasm.SecurityOwnership
import TdsWasm.SecurityFrame
import TdsWasm.HostModule
import TdsWasm.SecurityShape
import TdsWasm.HostSession
import TdsWasm.SecurityTrap
import TdsWasm.BridgeCustody
import TdsWasm.SecurityBuffers
import TdsWasm.BridgeLockstep
import TdsWasm.SecurityKey
import TdsWasm.SecurityKeyRuns
import TdsWasm.HostClock
import TdsWasm.SecurityDeadline
import TdsWasm.LibLabels
import TdsWasm.SecurityHosts
import TdsWasm.AgentCompletion
import TdsWasm.SecurityReturn
import TdsWasm.SecurityToolNames
import TdsWasm.LibJsonSize
import TdsWasm.SecurityCapacity
import TdsWasm.SecurityOrigin
import TdsWasm.LibToml
import TdsWasm.HostPolicyLoad
import TdsWasm.SecurityPolicyLoad
import TdsWasm.BridgeOffline
import TdsWasm.BridgeProgress
import TdsWasm.HostMock
import TdsWasm.BridgeDirect
import TdsWasm.LibBoundary
import TdsWasm.BridgeTruncate
import TdsWasm.HostFetch
import TdsWasm.HostAttempts
import TdsWasm.AbiStability
import TdsWasm.LibCells
import TdsWasm.SecurityMemory
import TdsWasm.LibLossy
import TdsWasm.SecurityLogs
import TdsWasm.LibTomlKeys
import TdsWasm.SecurityPolicyDefaults
import TdsWasm.LibJsonLine
import TdsWasm.HostDirectives
import TdsWasm.LibPool
import TdsWasm.HostWorld
import TdsWasm.BridgeWorld
import TdsWasm.HostServe
import TdsWasm.SecurityIsolation
import TdsWasm.SecurityService
import TdsWasm.BridgeTransparent
import TdsWasm.LibProgress
import TdsWasm.HostTicker
import TdsWasm.SecurityTicker
import TdsWasm.AgentAudit
import TdsWasm.BridgeAudit
import TdsWasm.BridgeTranscript
import TdsWasm.SecurityKeyService
import TdsWasm.AgentCode
import TdsWasm.BridgeService
