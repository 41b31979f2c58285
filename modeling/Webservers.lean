import Webservers.Lib.Machine
import Webservers.Lib.Loop
import Webservers.Lib.View
import Webservers.Lib.Bytes
import Webservers.Lib.CString
import Webservers.Lib.Format
import Webservers.Lib.Path
import Webservers.Sys
import Webservers.Buffer.Basic
import Webservers.Buffer.Theorems
import Webservers.Buffer.CapacityTheorems
import Webservers.Buffer.IndependenceTheorems
import Webservers.Channel
import Webservers.EpollPoller
import Webservers.EpollPoller.WatchTheorems
import Webservers.EpollPoller.CapacityTheorems
import Webservers.EventLoop.Basic
import Webservers.EventLoop.Theorems
import Webservers.EventLoop.Locking
import Webservers.EventLoop.TaskQueue
import Webservers.EventLoop.RoundTheorems
import Webservers.EventLoopThread
import Webservers.EventLoopThread.StartLoopTheorems
import Webservers.EventLoopThreadPool
import Webservers.TcpConnection.Basic
import Webservers.TcpConnection.OutputTheorems
import Webservers.TcpConnection.HighWaterTheorems
import Webservers.TcpConnection.EventTheorems
import Webservers.TcpConnection.InterestTheorems
import Webservers.TcpConnection.InputTheorems
import Webservers.TcpConnection.CallbackTheorems
import Webservers.TcpConnection.Interleaving
import Webservers.TcpConnection.StateTheorems
import Webservers.TcpConnection.HalfCloseTheorems
import Webservers.TcpConnection.CaptureTheorems
import Webservers.TcpServer.Basic
import Webservers.TcpServer.QueueTheorems
import Webservers.TcpServer.TeardownTheorems
import Webservers.TcpServer.HandshakeTheorems
import Webservers.TcpServer.ConfinementTheorems
import Webservers.TcpServer.DestructorTheorems
import Webservers.TcpServer.NameTheorems
import Webservers.TcpServer.AddressTheorems
import Webservers.TcpServer.LifetimeTheorems
import Webservers.TcpServer.Interleaving
import Webservers.TcpServer.ConnectionTheorems
import Webservers.TcpServer.StartTheorems
import Webservers.HttpConn.Basic
import Webservers.HttpConn.ReadTheorems
import Webservers.HttpConn.Parse
import Webservers.HttpConn.Response
import Webservers.HttpConn.RequestSpec
import Webservers.HttpConn.LineTheorems
import Webservers.HttpConn.ParseTheorems
import Webservers.HttpConn.LoopTheorems
import Webservers.HttpConn.FrameTheorems
import Webservers.HttpConn.ReceptionTheorems
import Webservers.HttpConn.CompleteTheorems
import Webservers.HttpConn.SplitTheorems
import Webservers.HttpConn.GrammarTheorems
import Webservers.HttpConn.HeaderTheorems
import Webservers.HttpConn.SegmentationTheorems
import Webservers.HttpConn.StoreTheorems
import Webservers.HttpConn.WriteTheorems
import Webservers.HttpConn.SlotTheorems
import Webservers.HttpConn.ReturnTheorems
import Webservers.HttpConn.AppendTheorems
import Webservers.HttpConn.AnswerTheorems
import Webservers.HttpConn.KeepAliveTheorems
import Webservers.HttpConn.LengthTheorems
import Webservers.HttpConn.FramingTheorems
import Webservers.HttpConn.MappingTheorems
import Webservers.HttpConn.PathTheorems
import Webservers.HttpConn.GrantTheorems
import Webservers.HttpConn.TargetTheorems
import Webservers.HttpServer.Basic
import Webservers.HttpServer.OwnershipTheorems
import Webservers.HttpServer.UserTheorems
import Webservers.HttpServer.ClientTheorems
import Webservers.HttpServer.StrandedTheorems
import Webservers.HttpServer.SessionTheorems
import Webservers.HttpServer.RestTheorems
import Webservers.HttpServer.ServiceTheorems
import Webservers.ThreadPool
import Webservers.HttpServer.PoolTheorems
